/-
**A coroutine on its own is a recursive depth-first search.**

A `DfsCoroutine` that is alone on its scheduler may begin with any visited vertices and any traversal
order.  It enters its start vertex without looking whether it has been visited; from there on, it does
what the recursion does: the entry on top of its stack stands for the edges that the innermost call has
still to look at, and the entries below for the calls around it.

Main definitions:

* `CooperativeDfs.Scheduler.LeadsTo` — one scheduler ends as another one does;
* `CooperativeDfs.Tracks` — what the coroutines share, as an order of the recursion.

Main results:

* `CooperativeDfs.leadsTo_explore` — **an entry of the stack is a call of the recursion**;
* `CooperativeDfs.coroutine_is_recursion` — **a coroutine on its own appends the preorder of the
  recursive search**, from any visited vertices and any order, on a graph with fewer than `2 ^ 31`
  vertices;
* `CooperativeDfs.many_vertices_throw` — with `2 ^ 31` vertices, an edge to a vertex is rejected.
-/

import CppMultithreaded.DfsOrder

set_option relaxedAutoImplicit false
set_option autoImplicit false

namespace CooperativeDfs

variable {graph : Graph} {s s' : Shared} {t t' : Task} {q q' : Scheduler}
variable {u v w vertex nextEdgeIndex : ℕ}

/-! ### One coroutine on a scheduler -/

/-- The scheduler ends as the other one does. -/
def Scheduler.LeadsTo (graph : Graph) (q q' : Scheduler) : Prop :=
  ∀ r, q'.Returns graph r → q.Returns graph r

theorem Scheduler.LeadsTo.trans {q'' : Scheduler} (h : q.LeadsTo graph q')
    (h' : q'.LeadsTo graph q'') : q.LeadsTo graph q'' := fun r hr => h r (h' r hr)

/-- A coroutine that has been resumed and is alone is resumed next. -/
theorem leadsTo_of_resume (h : t.resume graph s = .ok (t', s')) (hlive : t'.suspendedAt ≠ .final) :
    Scheduler.LeadsTo graph ⟨[t], s⟩ ⟨[t'], s'⟩ := by
  have hturn : Scheduler.turn graph t [] s = .ok ⟨[t'], s'⟩ := by
    unfold Scheduler.turn
    rw [h]
    exact if_neg hlive
  intro r hr
  exact Scheduler.Steps.returns (Relation.ReflTransGen.single (Scheduler.Next.turn hturn)) hr

/-- A coroutine whose stack is empty finishes, and then the scheduler has nothing left to do. -/
theorem returns_of_empty (u : ℕ) (s : Shared) :
    Scheduler.Returns graph ⟨[⟨u, [], .loopHead⟩], s⟩ (.ok s) := ⟨2, rfl⟩

/-- The entry on top of the stack has no edge left. -/
theorem leadsTo_leave (u : ℕ) (below : List (ℕ × ℕ)) (s : Shared)
    (h : (graph.edges vertex)[nextEdgeIndex]? = none) :
    Scheduler.LeadsTo graph ⟨[⟨u, (vertex, nextEdgeIndex) :: below, .loopHead⟩], s⟩
      ⟨[⟨u, below, .loopHead⟩], s.print ("leave vertex " ++ toString vertex ++ "\n")⟩ := by
  refine leadsTo_of_resume ?_ (by simp)
  simp only [Task.resume, Task.loop, h]

/-- The next edge of the entry on top of the stack is inspected. -/
theorem leadsTo_inspect (u : ℕ) (below : List (ℕ × ℕ)) (s : Shared)
    (h : (graph.edges vertex)[nextEdgeIndex]? = some (w : ℤ)) (hw : (w : ℤ) < graph.size) :
    Scheduler.LeadsTo graph ⟨[⟨u, (vertex, nextEdgeIndex) :: below, .loopHead⟩], s⟩
      ⟨[⟨u, (vertex, nextEdgeIndex + 1) :: below, .inspected w⟩],
        s.print ("inspect edge " ++ toString vertex ++ " -> " ++ toString (w : ℤ) ++ "\n")⟩ := by
  have hgood : ¬ ((w : ℤ) < 0 ∨ (w : ℤ) ≥ graph.size) := by omega
  refine leadsTo_of_resume ?_ (by simp)
  simp only [Task.resume, Task.loop, h, if_neg hgood, Int.toNat_natCast]

variable (graph) in
/-- The vertex at the end of the edge is entered. -/
theorem leadsTo_enter (u : ℕ) (stack : List (ℕ × ℕ)) (h : s.isVisited w = false) :
    Scheduler.LeadsTo graph ⟨[⟨u, stack, .inspected w⟩], s⟩
      ⟨[⟨u, (w, 0) :: stack, .loopHead⟩], s.enter w⟩ := by
  refine leadsTo_of_resume ?_ (by simp)
  simp only [Task.resume, h]
  rfl

variable (graph) in
/-- The vertex at the end of the edge has been visited: the coroutine goes on as from the head of its
loop, in the same turn. -/
theorem leadsTo_skip (u : ℕ) (stack : List (ℕ × ℕ)) (h : s.isVisited w = true) :
    Scheduler.LeadsTo graph ⟨[⟨u, stack, .inspected w⟩], s⟩ ⟨[⟨u, stack, .loopHead⟩], s⟩ := by
  have hresume : Task.resume graph ⟨u, stack, .inspected w⟩ s =
      Task.resume graph ⟨u, stack, .loopHead⟩ s := by
    simp only [Task.resume, h, if_true]
    exact loop_congr graph u stack _ _ s
  rintro r ⟨fuel, hr⟩
  refine ⟨fuel, ?_⟩
  cases fuel with
  | zero => simp [Scheduler.run] at hr
  | succ fuel =>
      rw [← hr]
      simp only [Scheduler.run, Scheduler.turn, hresume]

/-! ### The visited vertices as an order -/

/-- What the coroutine has appended to `base`, it has appended to the list `marked` of the vertices
visited at first, which makes an order of the recursion. -/
structure Tracks (marked base : List ℕ) (length : ℕ) (order : List ℕ) (s : Shared) : Prop where
  appended : ∃ new, order = marked ++ new ∧ s.traversalOrder = base ++ new
  isVisited : ∀ v, s.isVisited v = true ↔ v ∈ order
  length : s.visited.length = length

namespace Tracks

variable {marked base order : List ℕ} {length : ℕ}

theorem print (h : Tracks marked base length order s) (text : String) :
    Tracks marked base length order (s.print text) := ⟨h.appended, h.isVisited, h.length⟩

/-- A vertex is entered. -/
theorem enter (h : Tracks marked base length order s) (hv : v < length) :
    Tracks marked base length (order ++ [v]) (s.enter v) := by
  obtain ⟨new, horder, hbase⟩ := h.appended
  have hlt : v < s.visited.length := h.length ▸ hv
  refine ⟨⟨new ++ [v], ?_, ?_⟩, ?_, ?_⟩
  · rw [horder, List.append_assoc]
  · rw [Shared.traversalOrder_enter, hbase, List.append_assoc]
  · intro x
    rw [Shared.isVisited_enter hlt, h.isVisited, List.mem_append, List.mem_singleton, or_comm]
  · rw [Shared.length_visited_enter, h.length]

end Tracks

/-! ### The stack is the recursion -/

/-- Without an edge left, an entry is popped; otherwise its next successor is visited first. -/
theorem drop_successors (h : (graph.edges v)[nextEdgeIndex]? = some (w : ℤ)) :
    (graph.successors v).drop nextEdgeIndex = w :: (graph.successors v).drop (nextEdgeIndex + 1) := by
  have hw : (graph.successors v)[nextEdgeIndex]? = some w := by
    rw [Graph.successors, List.getElem?_map, h]
    rfl
  obtain ⟨hlt, hget⟩ := List.getElem?_eq_some_iff.1 hw
  rw [List.drop_eq_getElem_cons hlt, hget]

/-- **An entry of the stack is a call of the recursion**: from the head of the loop, the coroutine
comes to the head of the loop with the entry popped, and has then visited the successors that the
entry had left. -/
theorem leadsTo_explore (hvalid : graph.Valid) (hsize : graph.size = graph.adj.length)
    {marked base order : List ℕ} {length fuel : ℕ} (u vertex nextEdgeIndex : ℕ)
    (below : List (ℕ × ℕ)) (s : Shared)
    (hfuel : DepthFirst.Adequate graph.successors (Finset.range length) fuel order)
    (hs : Tracks marked base length order s) (hvertex : vertex < length) :
    ∃ s', Scheduler.LeadsTo graph ⟨[⟨u, (vertex, nextEdgeIndex) :: below, .loopHead⟩], s⟩
        ⟨[⟨u, below, .loopHead⟩], s'⟩ ∧
      Tracks marked base length (DepthFirst.forest graph.successors fuel order
        ((graph.successors vertex).drop nextEdgeIndex)) s' := by
  -- the outer induction is on the nested calls, the inner one on the edges that are left
  induction fuel generalizing order vertex nextEdgeIndex below s with
  | zero => exact absurd rfl hfuel.ne_zero
  | succ fuel ih =>
      induction hleft : (graph.edges vertex).length - nextEdgeIndex
        generalizing order nextEdgeIndex s with
      | zero =>
          have hnone : (graph.edges vertex)[nextEdgeIndex]? = none := by
            rw [List.getElem?_eq_none_iff]
            omega
          have hdrop : (graph.successors vertex).drop nextEdgeIndex = [] := by
            rw [List.drop_eq_nil_iff, Graph.successors, List.length_map]
            omega
          rw [hdrop, DepthFirst.forest_nil]
          exact ⟨_, leadsTo_leave u below s hnone, hs.print _⟩
      | succ left ihleft =>
          obtain ⟨x, hx⟩ : ∃ x, (graph.edges vertex)[nextEdgeIndex]? = some x :=
            ⟨_, List.getElem?_eq_getElem (by omega)⟩
          have hbound := hvalid.edge (List.mem_of_getElem? hx)
          obtain ⟨w, rfl⟩ := Int.eq_ofNat_of_zero_le hbound.1
          have hwU : w ∈ Finset.range length := by
            refine hfuel.closed vertex (Finset.mem_range.2 hvertex) w ?_
            exact List.mem_map.2 ⟨_, List.mem_of_getElem? hx, Int.toNat_natCast w⟩
          have hinspect := leadsTo_inspect u below s hx (by omega)
          have hs₀ := hs.print ("inspect edge " ++ toString vertex ++ " -> " ++ toString (w : ℤ) ++ "\n")
          rw [drop_successors hx, DepthFirst.forest_cons]
          by_cases hw : w ∈ order
          · -- the successor has been visited
            rw [DepthFirst.visit_of_mem hw]
            have hskip := leadsTo_skip graph u ((vertex, nextEdgeIndex + 1) :: below)
              ((hs₀.isVisited w).2 hw)
            obtain ⟨s', hrest, hs'⟩ := ihleft (nextEdgeIndex + 1) _ hfuel hs₀ (by omega)
            exact ⟨s', (hinspect.trans hskip).trans hrest, hs'⟩
          · -- the successor is entered: a nested call, and then the edges that are left
            have hnot := Bool.eq_false_iff.2 fun hv => hw ((hs₀.isVisited w).1 hv)
            have hwlt : w < length := Finset.mem_range.1 hwU
            have hcont := (hfuel.visit hwU).1
            rw [DepthFirst.visit_of_notMem hw] at hcont ⊢
            have henter := leadsTo_enter graph u ((vertex, nextEdgeIndex + 1) :: below) hnot
            obtain ⟨s₁, hcall, hs₁⟩ := ih w 0 ((vertex, nextEdgeIndex + 1) :: below) _
              (hfuel.snoc hwU hw) (hs₀.enter hwlt) hwlt
            rw [List.drop_zero] at hs₁
            obtain ⟨s', hrest, hs'⟩ :=
              ihleft (nextEdgeIndex + 1) _ (hfuel.of_continues hcont) hs₁ (by omega)
            exact ⟨s', ((hinspect.trans henter).trans hcall).trans hrest, hs'⟩

/-! ### From any visited vertices -/

/-- The vertices that have been visited. -/
def Shared.marked (s : Shared) : List ℕ := (List.range s.visited.length).filter s.isVisited

theorem Shared.mem_marked (s : Shared) (v : ℕ) : v ∈ s.marked ↔ s.isVisited v = true := by
  rw [Shared.marked, List.mem_filter, List.mem_range, and_iff_right_iff_imp]
  intro hv
  by_contra hlt
  rw [isVisited, List.getD_eq_getElem?_getD, List.getElem?_eq_none (by omega)] at hv
  exact Bool.noConfusion hv

theorem Shared.nodup_marked (s : Shared) : s.marked.Nodup := List.nodup_range.filter _

/-- Where the coroutine has entered its start vertex, the recursion begins with an order whose last
vertex is the start vertex; it comes once there, whether or not it had been visited. -/
theorem adequate_marked (hvalid : graph.Valid) (hlen : graph.adj.length ≤ s.visited.length)
    (hv : v < s.visited.length) {fuel : ℕ} (hfuel : s.visited.length ≤ fuel) :
    DepthFirst.Adequate graph.successors (Finset.range s.visited.length) fuel
      (s.marked.erase v ++ [v]) := by
  refine ⟨?_, ?_, ?_, ?_⟩
  · intro x _ w hw
    have hlt := hvalid.successors_lt hw
    exact Finset.mem_range.2 (by omega)
  · exact (s.nodup_marked.erase v).append (List.nodup_singleton v)
      (List.disjoint_singleton.2 s.nodup_marked.not_mem_erase)
  · intro x hx
    rcases List.mem_append.1 hx with hx | hx
    · exact Finset.mem_range.2 (List.mem_range.1 (List.mem_of_mem_filter (List.mem_of_mem_erase hx)))
    · rw [List.mem_singleton.1 hx]
      exact Finset.mem_range.2 hv
  · rw [Finset.card_range, List.length_append, List.length_singleton]
    omega

theorem mem_erase_marked (s : Shared) (v x : ℕ) :
    x ∈ s.marked ∨ x = v ↔ x ∈ s.marked.erase v ∨ x = v := by
  rw [s.nodup_marked.mem_erase_iff]
  tauto

/-- What a coroutine that starts at `start` has done, if it is the recursion. -/
structure Explored (graph : Graph) (start fuel : ℕ) (s s' : Shared) : Prop where
  traversalOrder : s'.traversalOrder =
    s.traversalOrder ++ DepthFirst.enter graph.successors fuel s.marked start
  visited : ∀ v, s'.isVisited v = true ↔
    s.isVisited v = true ∨ v ∈ DepthFirst.enter graph.successors fuel s.marked start
  length : s'.visited.length = s.visited.length

/-- The order that the recursion ends with is the one that the coroutine has built. -/
theorem Tracks.explored {start fuel : ℕ}
    (h : Tracks (s.marked.erase start) s.traversalOrder s.visited.length
      (DepthFirst.forest graph.successors fuel (s.marked.erase start ++ [start])
        (graph.successors start)) s') : Explored graph start fuel s s' := by
  obtain ⟨new, horder, hbase⟩ := h.appended
  have henter : s.marked.erase start ++ DepthFirst.enter graph.successors fuel s.marked start =
      DepthFirst.forest graph.successors fuel (s.marked.erase start ++ [start])
        (graph.successors start) := DepthFirst.append_enter (mem_erase_marked s start)
  have hnew : DepthFirst.enter graph.successors fuel s.marked start = new :=
    List.append_cancel_left (henter.trans horder)
  refine ⟨by rw [hbase, hnew], ?_, h.length⟩
  intro v
  have hstart : start ∈ DepthFirst.enter graph.successors fuel s.marked start := by
    have hmem : start ∈ DepthFirst.forest graph.successors fuel (s.marked.erase start ++ [start])
        (graph.successors start) :=
      DepthFirst.prefix_forest.subset (List.mem_append_right _ List.mem_cons_self)
    rw [horder, ← hnew] at hmem
    exact (List.mem_append.1 hmem).resolve_left s.nodup_marked.not_mem_erase
  rw [h.isVisited, horder, ← hnew, List.mem_append, ← s.mem_marked]
  by_cases hv : v = start
  · rw [hv]
    simp [hstart]
  · rw [s.nodup_marked.mem_erase_iff]
    simp [hv]

/-- **A coroutine on its own appends the preorder of the recursive search**, from any visited vertices
and any order. -/
theorem coroutine_is_recursion (graph : Graph) (hsize : graph.adj.length < 2 ^ 31)
    (hvalid : graph.Valid) (start : ℕ) (hstart : start < graph.adj.length) (s : Shared)
    (hlen : graph.adj.length ≤ s.visited.length) :
    ∃ s', (Scheduler.spawn ⟨[], s⟩ (dfsCoroutine start)).Returns graph (.ok s') ∧
      ∀ fuel, s.visited.length ≤ fuel → Explored graph start fuel s s' := by
  have hcount : graph.size = graph.adj.length := staticCastInt_of_lt hsize
  have hlt : start < s.visited.length := by omega
  -- the coroutine enters its start vertex, and then explores the one entry of its stack
  have henter : Scheduler.LeadsTo graph ⟨[dfsCoroutine start], s⟩
      ⟨[⟨start, [(start, 0)], .loopHead⟩], s.enter start⟩ := leadsTo_of_resume rfl (by simp)
  have htracks : Tracks (s.marked.erase start) s.traversalOrder s.visited.length
      (s.marked.erase start ++ [start]) (s.enter start) := by
    refine ⟨⟨[start], rfl, rfl⟩, ?_, Shared.length_visited_enter s start⟩
    intro v
    rw [Shared.isVisited_enter hlt, ← s.mem_marked, or_comm, mem_erase_marked s start v]
    simp
  have hall : ∀ fuel, s.visited.length ≤ fuel →
      ∃ s', (Scheduler.spawn ⟨[], s⟩ (dfsCoroutine start)).Returns graph (.ok s') ∧
        Explored graph start fuel s s' := by
    intro fuel hfuel
    obtain ⟨s', hleads, hs'⟩ := leadsTo_explore hvalid hcount start start 0 [] _
      (adequate_marked hvalid hlen hlt hfuel) htracks hlt
    rw [List.drop_zero] at hs'
    exact ⟨s', henter _ (hleads _ (returns_of_empty start s')), hs'.explored⟩
  obtain ⟨s', hr, -⟩ := hall _ le_rfl
  refine ⟨s', hr, ?_⟩
  intro fuel hfuel
  obtain ⟨s'', hr', hexplored⟩ := hall fuel hfuel
  rw [Except.ok.inj (Scheduler.Returns.unique hr hr')]
  exact hexplored

/-- A cycle back into the start vertex, which had been visited, as has the vertex `2`. -/
theorem coroutine_is_recursion_cycle :
    let graph : Graph := ⟨[[0, 1, 1], [2, 3, 0], [], [1]]⟩
    let s : Shared := ⟨[true, false, true, false], [2], none⟩
    ∃ s', (Scheduler.spawn ⟨[], s⟩ (dfsCoroutine 0)).Returns graph (.ok s') ∧
      s'.traversalOrder = [2, 0, 1, 3] := by
  obtain ⟨s', hr, hexplored⟩ := coroutine_is_recursion ⟨[[0, 1, 1], [2, 3, 0], [], [1]]⟩
    (by decide) (by decide) 0 (by decide) ⟨[true, false, true, false], [2], none⟩ (by decide)
  exact ⟨s', hr, (hexplored 4 (by decide)).traversalOrder⟩

/-- A coroutine throws at the first edge of its start vertex, if that is beyond the number of vertices. -/
theorem throws_of_size_le {start : ℕ} {x : ℤ} (s : Shared)
    (hedge : (graph.edges start)[0]? = some x) (hx : graph.size ≤ x) :
    (Scheduler.spawn ⟨[], s⟩ (dfsCoroutine start)).Returns graph (.error invalidVertex) := by
  have henter : Scheduler.LeadsTo graph ⟨[dfsCoroutine start], s⟩
      ⟨[⟨start, [(start, 0)], .loopHead⟩], s.enter start⟩ := leadsTo_of_resume rfl (by simp)
  refine henter _ ⟨1, ?_⟩
  simp only [Scheduler.run, Scheduler.turn, Task.resume, Task.loop, hedge]
  rw [if_pos (Or.inr hx)]

/-- A graph with `2 ^ 31` vertices, whose number is negative as an `int`; every vertex has an edge to the
vertex `1`. -/
def manyVertices : Graph := ⟨List.replicate (2 ^ 31) [1]⟩

theorem length_manyVertices : manyVertices.adj.length = 2 ^ 31 := List.length_replicate

theorem valid_manyVertices : manyVertices.Valid := by
  intro row hrow w hw
  rw [List.eq_of_mem_replicate hrow, List.mem_singleton] at hw
  rw [hw, length_manyVertices]
  decide

theorem size_manyVertices_le : manyVertices.size ≤ 1 := by
  rw [Graph.size, length_manyVertices]
  decide

theorem edge_manyVertices : (manyVertices.edges 0)[0]? = some 1 := by
  have hrow : manyVertices.adj[0]? = some [1] := List.getElem?_replicate_of_lt (by decide)
  rw [Graph.edges, List.getD_eq_getElem?_getD, hrow]
  rfl

/-- **With `2 ^ 31` vertices, an edge to a vertex is rejected**: the coroutine throws although every
entry is the index of a vertex. -/
theorem many_vertices_throw :
    let s : Shared := ⟨List.replicate (2 ^ 31) false, [], none⟩
    manyVertices.Valid ∧ 0 < manyVertices.adj.length ∧ s.visited.length = manyVertices.adj.length ∧
      (Scheduler.spawn ⟨[], s⟩ (dfsCoroutine 0)).Returns manyVertices (.error invalidVertex) ∧
      ¬∃ s', (Scheduler.spawn ⟨[], s⟩ (dfsCoroutine 0)).Returns manyVertices (.ok s') := by
  intro s
  have hthrows := throws_of_size_le s edge_manyVertices size_manyVertices_le
  refine ⟨valid_manyVertices, ?_, ?_, hthrows, ?_⟩
  · rw [length_manyVertices]
    decide
  · rw [length_manyVertices]
    exact List.length_replicate
  · rintro ⟨s', hr⟩
    exact absurd (Scheduler.Returns.unique hthrows hr) (by simp)

end CooperativeDfs
