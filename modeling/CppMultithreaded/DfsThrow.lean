/-
**`CooperativeDFS` rejects exactly the malformed graphs.**

A coroutine looks at an adjacency entry only when it inspects the edge, so that an invalid entry is
found only if some coroutine comes to it.  None is passed over: an invalid entry of a vertex that has
been entered stays in front of the cursor of that vertex, on the stack of some coroutine, and a stack
is empty before its coroutine finishes.

What a resumption indexes is listed next to what it does, and is in bounds for every graph.

Main definitions:

* `CooperativeDfs.Graph.Invalid`, `CooperativeDfs.Graph.ReachesThrough` — the entries that are
  rejected, and reachability through the others;
* `CooperativeDfs.Ahead` — the invariant of the invalid entries;
* `CooperativeDfs.Indexing`, `CooperativeDfs.Task.indexings` — what a resumption indexes;
* `CooperativeDfs.Rejects` — what `Run` does on graphs with any entries.

Main results:

* `CooperativeDfs.Ahead.turn` — **every turn keeps the invalid entries ahead**;
* `CooperativeDfs.Sound.inBounds` — what a resumption indexes is in bounds;
* `CooperativeDfs.rejects_malformed` — **`Run` throws exactly when a vertex with an invalid entry is
  reachable**, and `CooperativeDFS` exactly on the malformed graphs.
-/

import CppMultithreaded.DfsReach

set_option relaxedAutoImplicit false
set_option autoImplicit false

namespace CooperativeDfs

variable {graph : Graph} {starts : List ℕ} {s s' : Shared} {t t' : Task} {rest : List Task}
variable {q q' : Scheduler}

/-! ### Malformed graphs -/

/-- The entry is not the index of a vertex. -/
def Graph.Invalid (graph : Graph) (x : ℤ) : Prop := x < 0 ∨ graph.adj.length ≤ x

/-- The adjacency list of `v` contains an invalid entry. -/
def Graph.MalformedAt (graph : Graph) (v : ℕ) : Prop := ∃ x ∈ graph.edges v, graph.Invalid x

/-- Some adjacency list contains an invalid entry. -/
def Graph.Malformed (graph : Graph) : Prop := ∃ row ∈ graph.adj, ∃ x ∈ row, graph.Invalid x

/-- There is a path of valid edges from `u` to `v`. -/
def Graph.ReachesThrough (graph : Graph) : ℕ → ℕ → Prop :=
  Relation.ReflTransGen fun u v => graph.Edge u v ∧ ¬graph.Invalid v

/-- Only a vertex has an adjacency list. -/
theorem Graph.lt_of_mem_edges {v : ℕ} {x : ℤ} (h : x ∈ graph.edges v) : v < graph.adj.length := by
  by_contra hlt
  rw [Graph.edges, List.getD_eq_getElem?_getD, List.getElem?_eq_none (by omega)] at h
  exact List.not_mem_nil h

/-- A path to a vertex is a path of valid edges, since the vertices that it leaves have edges. -/
theorem Graph.Reaches.through {u v : ℕ} (h : graph.Reaches u v) (hv : v < graph.adj.length) :
    graph.ReachesThrough u v := by
  induction h with
  | refl => exact Relation.ReflTransGen.refl
  | @tail b c _ hedge ih =>
      refine (ih (graph.lt_of_mem_edges hedge)).tail ⟨hedge, ?_⟩
      unfold Graph.Invalid
      omega

theorem Graph.ReachesThrough.reaches {u v : ℕ} (h : graph.ReachesThrough u v) : graph.Reaches u v :=
  Relation.ReflTransGen.mono (fun _ _ hedge => hedge.1) u v h

/-- A graph is malformed where one of its vertices is. -/
theorem Graph.malformed_iff : graph.Malformed ↔ ∃ v < graph.adj.length, graph.MalformedAt v := by
  constructor
  · rintro ⟨row, hrow, x, hx, hinvalid⟩
    obtain ⟨v, hv⟩ := List.getElem?_of_mem hrow
    refine ⟨v, (List.getElem?_eq_some_iff.1 hv).1, x, ?_, hinvalid⟩
    rw [Graph.edges, List.getD_eq_getElem?_getD, hv]
    exact hx
  · rintro ⟨v, hv, x, hx, hinvalid⟩
    rw [Graph.edges, List.getD_eq_getElem?_getD, List.getElem?_eq_getElem hv] at hx
    exact ⟨_, List.getElem_mem hv, x, hx, hinvalid⟩

/-! ### Where a resumption throws -/

/-- A resumption throws at an invalid entry of the vertex on top of the stack. -/
theorem exists_of_resume_throws (hsize : graph.size = graph.adj.length) {e : String}
    (h : t.resume graph s = .error e) :
    e = invalidVertex ∧ ∃ entry ∈ t.stack, graph.MalformedAt entry.1 := by
  have hloop : ∀ p, Task.loop graph ⟨t.startVertex, t.stack, p⟩ s = .error e →
      e = invalidVertex ∧ ∃ entry ∈ t.stack, graph.MalformedAt entry.1 := by
    intro p hp
    unfold Task.loop at hp
    split at hp
    · simp at hp
    · next vertex nextEdgeIndex below hstack =>
        split at hp
        · simp at hp
        · next toVertex hto =>
            split_ifs at hp with hbad
            refine ⟨(Except.error.inj hp).symm, (vertex, nextEdgeIndex), ?_, toVertex,
              List.mem_of_getElem? hto, ?_⟩
            · rw [show t.stack = (vertex, nextEdgeIndex) :: below from hstack]
              exact List.mem_cons_self
            · unfold Graph.Invalid
              omega
  obtain ⟨v, stack, p⟩ := t
  cases p with
  | initial => simp [Task.resume] at h
  | loopHead => exact hloop _ h
  | inspected toVertex =>
      simp only [Task.resume] at h
      split_ifs at h
      exact hloop _ h
  | final => simp [Task.resume] at h

/-! ### The invalid entries -/

/-- An invalid entry of a vertex that has been entered has not been passed: some coroutine has the
vertex on its stack, with a cursor that is not behind the entry. -/
def Ahead (graph : Graph) (order : List ℕ) (tasks : List Task) : Prop :=
  ∀ v ∈ order, ∀ (j : ℕ) (x : ℤ), (graph.edges v)[j]? = some x → graph.Invalid x →
    ∃ t ∈ tasks, ∃ k ≤ j, (v, k) ∈ t.stack

namespace Ahead

variable {order order' : List ℕ} {tasks tasks' : List Task}

theorem congr (h : Ahead graph order tasks) (hmem : ∀ t, t ∈ tasks ↔ t ∈ tasks') :
    Ahead graph order tasks' := by
  intro v hv j x hx hinvalid
  obtain ⟨t, ht, hk⟩ := h v hv j x hx hinvalid
  exact ⟨t, (hmem t).1 ht, hk⟩

/-- One coroutine takes a turn. -/
theorem replace (h : Ahead graph order (t :: rest))
    (hkeep : ∀ (v j : ℕ) (x : ℤ), (graph.edges v)[j]? = some x → graph.Invalid x →
      (∃ k ≤ j, (v, k) ∈ t.stack) → ∃ k ≤ j, (v, k) ∈ t'.stack)
    (hnew : ∀ v ∈ order', v ∉ order → (v, 0) ∈ t'.stack) :
    Ahead graph order' (t' :: rest) := by
  intro v hv j x hx hinvalid
  by_cases hold : v ∈ order
  · obtain ⟨t₀, ht₀, hk⟩ := h v hold j x hx hinvalid
    rcases List.mem_cons.1 ht₀ with rfl | ht₀
    · exact ⟨t', List.mem_cons_self, hkeep v j x hx hinvalid hk⟩
    · exact ⟨t₀, List.mem_cons_of_mem t' ht₀, hk⟩
  · exact ⟨t', List.mem_cons_self, 0, Nat.zero_le j, hnew v hv hold⟩

/-- A coroutine with an empty stack may be destroyed. -/
theorem destroy (h : Ahead graph order (t :: rest)) (hstack : t.stack = []) :
    Ahead graph order rest := by
  intro v hv j x hx hinvalid
  obtain ⟨t₀, ht₀, k, hk, hmem⟩ := h v hv j x hx hinvalid
  rcases List.mem_cons.1 ht₀ with rfl | ht₀
  · rw [hstack] at hmem
    exact absurd hmem List.not_mem_nil
  · exact ⟨t₀, ht₀, k, hk, hmem⟩

end Ahead

/-- A coroutine finishes with an empty stack. -/
theorem Turn.stack_of_final (h : Turn graph t s t' s') (hfinal : t'.suspendedAt = .final) :
    t'.stack = [] := by
  induction h with
  | finish => rfl
  | skip v toVertex stack s s' t' hvisited _ ih => exact ih hfinal
  | _ => simp at hfinal

/-- A turn does not pass an invalid entry. -/
theorem ahead_of_turn (hsize : graph.size = graph.adj.length) (hturn : Turn graph t s t' s')
    (hinit : t.suspendedAt = .initial → t.stack = [])
    (h : Ahead graph s.traversalOrder (t :: rest)) : Ahead graph s'.traversalOrder (t' :: rest) := by
  induction hturn with
  | start v stack s =>
      refine h.replace ?_ ?_
      · rintro x j y - - ⟨k, -, hk⟩
        rw [hinit rfl] at hk
        exact absurd hk List.not_mem_nil
      · intro x hx hnot
        rcases List.mem_append.1 hx with hx | hx
        · exact absurd hx hnot
        · rw [List.mem_singleton.1 hx]
          exact List.mem_cons_self
  | finish v s => exact h.replace (fun _ _ _ _ _ hk => hk) fun x hx hnot => absurd hx hnot
  | leave v vertex nextEdgeIndex below s text hlast =>
      refine h.replace ?_ fun x hx hnot => absurd hx hnot
      rintro x j y hy - ⟨k, hk, hmem⟩
      rcases List.mem_cons.1 hmem with heq | hmem
      · -- the cursor of the entry that is popped is behind all edges
        obtain ⟨rfl, rfl⟩ := Prod.mk.inj heq
        have hlt := (List.getElem?_eq_some_iff.1 hy).1
        omega
      · exact ⟨k, hk, hmem⟩
  | inspect v vertex nextEdgeIndex toVertex below s text hto hlt =>
      refine h.replace ?_ fun x hx hnot => absurd hx hnot
      rintro x j y hy hinvalid ⟨k, hk, hmem⟩
      rcases List.mem_cons.1 hmem with heq | hmem
      · -- the cursor moves over a valid entry only
        obtain ⟨rfl, rfl⟩ := Prod.mk.inj heq
        rcases Nat.eq_or_lt_of_le hk with rfl | hlt'
        · rw [hto, Option.some.injEq] at hy
          unfold Graph.Invalid at hinvalid
          omega
        · exact ⟨k + 1, hlt', List.mem_cons_self⟩
      · exact ⟨k, hk, List.mem_cons_of_mem _ hmem⟩
  | enter v toVertex stack s hnew =>
      refine h.replace ?_ ?_
      · rintro x j y - - ⟨k, hk, hmem⟩
        exact ⟨k, hk, List.mem_cons_of_mem _ hmem⟩
      · intro x hx hnot
        rcases List.mem_append.1 hx with hx | hx
        · exact absurd hx hnot
        · rw [List.mem_singleton.1 hx]
          exact List.mem_cons_self
  | skip v toVertex stack s s' t' hvisited _ ih =>
      have hsame : Ahead graph s.traversalOrder (⟨v, stack, .loopHead⟩ :: rest) :=
        h.replace (fun _ _ _ _ _ hk => hk) fun x hx hnot => absurd hx hnot
      exact ih (by simp) hsame

/-- A coroutine in the queue has not finished, and has an empty stack if it has not begun. -/
theorem Sound.head (h : Sound graph starts ⟨t :: rest, s⟩) :
    t.suspendedAt ≠ .final ∧ (t.suspendedAt = .initial → t.stack = []) := by
  obtain ⟨fresh, live, hqueue, hlive, -, -⟩ := h
  have hmem : t ∈ fresh.map dfsCoroutine ++ live := hqueue ▸ List.mem_cons_self
  rcases List.mem_append.1 hmem with hmem | hmem
  · obtain ⟨v, -, rfl⟩ := List.mem_map.1 hmem
    exact ⟨by simp [dfsCoroutine], fun _ => rfl⟩
  · exact ⟨(hlive t hmem).2, fun hinit => absurd hinit (hlive t hmem).1⟩

/-- **Every turn keeps the invalid entries ahead.** -/
theorem Ahead.turn (hsize : graph.size = graph.adj.length) (hsound : Sound graph starts ⟨t :: rest, s⟩)
    (h : Ahead graph s.traversalOrder (t :: rest)) (hturn : Scheduler.turn graph t rest s = .ok q) :
    Ahead graph q.shared.traversalOrder q.readyQueue := by
  obtain ⟨hlive, hinit⟩ := hsound.head
  obtain ⟨t', s', hresume, hq⟩ := turn_eq_ok hturn
  have hstep := turn_of_resume hlive hresume
  have hahead := ahead_of_turn hsize hstep hinit h
  by_cases hfinal : t'.suspendedAt = .final
  · rw [hq, if_pos hfinal]
    exact hahead.destroy (hstep.stack_of_final hfinal)
  · rw [hq, if_neg hfinal]
    refine hahead.congr fun t₀ => ?_
    simp only [Scheduler.spawn, List.mem_cons, List.mem_append, List.not_mem_nil, or_false]
    exact or_comm

/-! ### Runs -/

/-- Before `Run`, no vertex has been entered. -/
theorem ahead_spawnAll (graph : Graph) (starts : List ℕ) (log : Option String) :
    Ahead graph (spawnAll (.empty graph log) starts).shared.traversalOrder
      (spawnAll (.empty graph log) starts).readyQueue := by
  rw [spawnAll_eq]
  exact fun v hv => absurd hv List.not_mem_nil

/-- The invariants hold as long as `Run` goes on. -/
theorem Sound.steps (h : Sound graph starts q) (hsteps : q.Steps graph q') : Sound graph starts q' := by
  induction hsteps with
  | refl => exact h
  | tail _ hnext ih =>
      cases hnext with
      | turn hturn => exact ih.turn hturn

theorem Ahead.steps (hsize : graph.size = graph.adj.length) (hsound : Sound graph starts q)
    (h : Ahead graph q.shared.traversalOrder q.readyQueue) (hsteps : q.Steps graph q') :
    Ahead graph q'.shared.traversalOrder q'.readyQueue := by
  induction hsteps with
  | refl => exact h
  | tail hsteps hnext ih =>
      cases hnext with
      | turn hturn => exact Ahead.turn hsize (hsound.steps hsteps) ih hturn

/-- Every vertex that has been entered is reachable through valid edges. -/
theorem Sound.reachesThrough (h : Sound graph starts q) {v : ℕ} (hv : v ∈ q.shared.traversalOrder) :
    ∃ u ∈ starts, graph.ReachesThrough u v := by
  obtain ⟨fresh, live, -, -, hp, -⟩ := h
  obtain ⟨u, hu, hreach⟩ := hp.reached v (List.mem_append_left _ hv)
  exact ⟨u, hu, hreach.through (hp.lt_length (List.mem_append_left _ hv))⟩

/-- There are only visited vertices on the stack of the coroutine that is resumed next. -/
theorem Sound.stack (h : Sound graph starts ⟨t :: rest, s⟩) {entry : ℕ × ℕ} (hentry : entry ∈ t.stack) :
    entry.1 ∈ s.traversalOrder := by
  obtain ⟨fresh, live, -, -, -, hc⟩ := h
  exact hc.stack t List.mem_cons_self entry hentry

/-! ### What is indexed -/

/-- An index into a vector of the source. -/
inductive Indexing
  /-- `graph.adj[vertex]`. -/
  | adj (vertex : ℕ)
  /-- `graph.adj[vertex][i]`. -/
  | edge (vertex i : ℕ)
  /-- `visited[vertex]`. -/
  | visited (vertex : ℕ)

/-- The index is in bounds. -/
def Indexing.InBounds (graph : Graph) (s : Shared) : Indexing → Prop
  | .adj vertex => vertex < graph.adj.length
  | .edge vertex i => i < (graph.edges vertex).length
  | .visited vertex => vertex < s.visited.length

/-- What is indexed from the head of the loop to the next suspension. -/
def Task.loopIndexings (graph : Graph) (t : Task) : List Indexing :=
  match t.stack with
  | [] => []
  | (vertex, nextEdgeIndex) :: _ =>
      if nextEdgeIndex ≥ (graph.edges vertex).length then [.adj vertex]
      else [.adj vertex, .edge vertex nextEdgeIndex]

/-- What is indexed from where the coroutine is suspended to its next suspension. -/
def Task.indexings (graph : Graph) (t : Task) (s : Shared) : List Indexing :=
  match t.suspendedAt with
  | .initial => [.visited t.startVertex]
  | .loopHead => t.loopIndexings graph
  | .inspected toVertex =>
      .visited toVertex :: if s.isVisited toVertex then t.loopIndexings graph else []
  | .final => []

/-- From the head of the loop, a vertex on the stack is indexed, and an edge that it has. -/
theorem inBounds_loopIndexings (hstack : ∀ entry ∈ t.stack, entry.1 < graph.adj.length) :
    ∀ i ∈ t.loopIndexings graph, i.InBounds graph s := by
  intro i hi
  unfold Task.loopIndexings at hi
  split at hi
  · exact absurd hi List.not_mem_nil
  · next vertex nextEdgeIndex below heq =>
      have hvertex : vertex < graph.adj.length :=
        hstack (vertex, nextEdgeIndex) (heq ▸ List.mem_cons_self)
      split_ifs at hi with hlast
      · rw [List.mem_singleton.1 hi]
        exact hvertex
      · rcases List.mem_cons.1 hi with rfl | hi
        · exact hvertex
        · rw [List.mem_singleton.1 hi]
          exact not_le.1 hlast

/-- **What a resumption indexes is in bounds.** -/
theorem Sound.inBounds (h : Sound graph starts ⟨t :: rest, s⟩) :
    ∀ i ∈ t.indexings graph s, i.InBounds graph s := by
  obtain ⟨fresh, live, hqueue, hlive, hp, hc⟩ := h
  have hloop : ∀ i ∈ t.loopIndexings graph, i.InBounds graph s :=
    inBounds_loopIndexings fun entry hentry =>
      hp.lt_length (List.mem_append_left _ (hc.stack t List.mem_cons_self entry hentry))
  have hle := graph.size_le
  intro i hi
  unfold Task.indexings at hi
  split at hi
  · next hinit =>
      rw [List.mem_singleton.1 hi]
      have hmem : t ∈ fresh.map dfsCoroutine ++ live := hqueue ▸ List.mem_cons_self
      rcases List.mem_append.1 hmem with hmem | hmem
      · obtain ⟨v, hv, rfl⟩ := List.mem_map.1 hmem
        have hlt := hp.lt_length (List.mem_append_right _ hv)
        rw [← hp.length] at hlt
        exact hlt
      · exact absurd hinit (hlive t hmem).1
  · exact hloop i hi
  · next toVertex hinspected =>
      have hlt := (hc.inspected t List.mem_cons_self toVertex hinspected).1
      have hvisited : toVertex < s.visited.length := by
        rw [hp.length]
        omega
      rcases List.mem_cons.1 hi with rfl | hi
      · exact hvisited
      · split_ifs at hi
        · exact hloop i hi
        · exact absurd hi List.not_mem_nil
  · exact absurd hi List.not_mem_nil

/-! ### The outcomes -/

/-- A vertex with an invalid entry is reachable from one of the start vertices. -/
def Graph.MalformedFrom (graph : Graph) (starts : List ℕ) : Prop :=
  ∃ u ∈ starts, ∃ v, graph.ReachesThrough u v ∧ graph.MalformedAt v

/-- Where `Run` throws, a vertex with an invalid entry is reachable. -/
theorem Sound.malformedFrom (hsize : graph.size = graph.adj.length) (h : Sound graph starts q)
    {e : String} (hr : q.Returns graph (.error e)) :
    e = invalidVertex ∧ graph.MalformedFrom starts := by
  rcases hr.steps with ⟨s, heq, -⟩ | ⟨e', t, rest, s, heq, hsteps, hresume⟩
  · exact absurd heq (by simp)
  · have hsound := h.steps hsteps
    obtain ⟨rfl, entry, hentry, hmalformed⟩ := exists_of_resume_throws hsize hresume
    obtain ⟨u, hu, hreach⟩ := hsound.reachesThrough (hsound.stack hentry)
    exact ⟨Except.error.inj heq, u, hu, entry.1, hreach, hmalformed⟩

/-- Where `Run` returns, it has passed all entries of the vertices that are reachable. -/
theorem Sound.not_malformedFrom (hsize : graph.size = graph.adj.length) (h : Sound graph starts q)
    (hahead : Ahead graph q.shared.traversalOrder q.readyQueue) (hr : q.Returns graph (.ok s)) :
    ¬graph.MalformedFrom starts := by
  rintro ⟨u, hu, v, hreach, x, hx, hinvalid⟩
  rcases hr.steps with ⟨s', heq, hsteps⟩ | ⟨e, t, rest, s', heq, -⟩
  · have hv := ((h.steps hsteps).mem_iff (v := v)).2 ⟨u, hu, hreach.reaches⟩
    obtain ⟨j, hj⟩ := List.getElem?_of_mem hx
    obtain ⟨t, ht, -⟩ := hahead.steps hsize h hsteps v hv j x hj hinvalid
    exact List.not_mem_nil ht
  · exact absurd heq (by simp)

/-- What `Run` does, whatever the entries are: it throws if a vertex with an invalid entry is
reachable, it returns otherwise, and no coroutine indexes a vector out of its bounds. -/
structure Rejects (graph : Graph) (starts : List ℕ) (q : Scheduler) : Prop where
  throws : q.Returns graph (.error invalidVertex) ↔ graph.MalformedFrom starts
  returns : (∃ s, q.Returns graph (.ok s)) ↔ ¬graph.MalformedFrom starts
  inBounds : ∀ t rest s, q.Steps graph ⟨t :: rest, s⟩ → ∀ i ∈ t.indexings graph s, i.InBounds graph s

theorem rejects_spawnAll (hsize : graph.size = graph.adj.length) (hnodup : starts.Nodup)
    (hstarts : ∀ v ∈ starts, v < graph.adj.length) (log : Option String) :
    Rejects graph starts (spawnAll (.empty graph log) starts) := by
  have hsound : Sound graph starts (spawnAll (.empty graph log) starts) := by
    refine sound_spawnAll hnodup ?_ log
    intro v hv
    rw [hsize]
    exact_mod_cast hstarts v hv
  have hahead := ahead_spawnAll graph starts log
  obtain ⟨r, hr⟩ := hsound.exists_returns
  refine ⟨⟨fun hthrows => (hsound.malformedFrom hsize hthrows).2, ?_⟩, ⟨?_, ?_⟩, ?_⟩
  · intro hmalformed
    cases r with
    | error e => exact (hsound.malformedFrom hsize hr).1 ▸ hr
    | ok s => exact absurd hmalformed (hsound.not_malformedFrom hsize hahead hr)
  · rintro ⟨s, hs⟩
    exact hsound.not_malformedFrom hsize hahead hs
  · intro hnot
    cases r with
    | error e => exact absurd (hsound.malformedFrom hsize hr).2 hnot
    | ok s => exact ⟨s, hr⟩
  · exact fun t rest s hsteps => (hsound.steps hsteps).inBounds

/-- From all vertices together, a graph is malformed where one of its vertices is. -/
theorem malformedFrom_range : graph.MalformedFrom (List.range graph.adj.length) ↔ graph.Malformed := by
  rw [Graph.malformed_iff]
  constructor
  · rintro ⟨u, -, v, -, x, hx, hinvalid⟩
    exact ⟨v, graph.lt_of_mem_edges hx, x, hx, hinvalid⟩
  · rintro ⟨v, hv, hmalformed⟩
    exact ⟨v, List.mem_range.2 hv, v, Relation.ReflTransGen.refl, hmalformed⟩

/-- `CooperativeDFS` ends as `Run` does. -/
theorem exists_cooperativeDFS_iff {log : Option String} {r : Except String (List ℕ)} :
    (∃ fuel, cooperativeDFS graph log fuel = some r) ↔
      ∃ r', (spawnLoop (.empty graph log) graph.loopRange).Returns graph r' ∧
        r'.map Shared.traversalOrder = r := by
  constructor
  · rintro ⟨fuel, h⟩
    obtain ⟨r', hr', hmap⟩ := Option.map_eq_some_iff.1 h
    exact ⟨r', ⟨fuel, hr'⟩, hmap⟩
  · rintro ⟨r', ⟨fuel, hr'⟩, hmap⟩
    exact ⟨fuel, Option.map_eq_some_iff.2 ⟨r', hr', hmap⟩⟩

/-- **`Run` throws exactly when a vertex with an invalid entry is reachable from the start vertices**,
and `CooperativeDFS` throws exactly on the malformed graphs. -/
theorem rejects_malformed (graph : Graph) (hsize : graph.adj.length < 2 ^ 31) :
    (∀ (starts : List ℕ) (log : Option String), starts.Nodup →
      (∀ v ∈ starts, v < graph.adj.length) →
      Rejects graph starts (spawnAll (.empty graph log) starts)) ∧
    ∀ log, ((∃ fuel, cooperativeDFS graph log fuel = some (.error invalidVertex)) ↔ graph.Malformed) ∧
      ((∃ fuel order, cooperativeDFS graph log fuel = some (.ok order)) ↔ ¬graph.Malformed) ∧
      Rejects graph (List.range graph.adj.length) (spawnLoop (.empty graph log) graph.loopRange) := by
  have hcount : graph.size = graph.adj.length := staticCastInt_of_lt hsize
  refine ⟨fun starts log hnodup hstarts => rejects_spawnAll hcount hnodup hstarts log, ?_⟩
  intro log
  have hrejects : Rejects graph (List.range graph.adj.length)
      (spawnLoop (.empty graph log) graph.loopRange) := by
    rw [spawnLoop_empty, Graph.loopRange, hcount, Int.toNat_natCast]
    exact rejects_spawnAll hcount List.nodup_range (fun v hv => List.mem_range.1 hv) log
  refine ⟨?_, ?_, hrejects⟩
  · rw [exists_cooperativeDFS_iff, ← malformedFrom_range, ← hrejects.throws]
    constructor
    · rintro ⟨r, hr, hmap⟩
      cases r with
      | error e => rw [← Except.error.inj hmap]; exact hr
      | ok s => simp [Except.map] at hmap
    · exact fun hr => ⟨_, hr, rfl⟩
  · rw [← malformedFrom_range, ← hrejects.returns]
    constructor
    · rintro ⟨fuel, order, h⟩
      obtain ⟨r, hr, hmap⟩ := exists_cooperativeDFS_iff.1 ⟨fuel, h⟩
      cases r with
      | error e => simp [Except.map] at hmap
      | ok s => exact ⟨s, hr⟩
    · rintro ⟨s, hr⟩
      obtain ⟨fuel, h⟩ := exists_cooperativeDFS_iff.2 ⟨_, hr, rfl⟩
      exact ⟨fuel, s.traversalOrder, h⟩

/-- The vertex `2` has an invalid entry, and is not reachable from `0`. -/
theorem rejects_malformed_three_vertices :
    let graph : Graph := ⟨[[1], [0], [-1]]⟩
    (∃ s, (spawnAll (.empty graph none) [0]).Returns graph (.ok s)) ∧
      ¬graph.MalformedFrom [0] ∧ graph.MalformedFrom [0, 2] := by
  have h := (rejects_malformed ⟨[[1], [0], [-1]]⟩ (by decide)).1
  have hzero := h [0] none (by decide) (by decide)
  have htwo := h [0, 2] none (by decide) (by decide)
  have hr : ∃ s, (spawnAll (.empty ⟨[[1], [0], [-1]]⟩ none) [0]).Returns ⟨[[1], [0], [-1]]⟩ (.ok s) :=
    ⟨_, 20, rfl⟩
  exact ⟨hr, hzero.returns.1 hr, htwo.throws.1 ⟨20, rfl⟩⟩

end CooperativeDfs
