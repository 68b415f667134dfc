/-
**The cooperative depth-first search of hw-1.**

A `DfsCoroutine` explores a graph with an explicit stack, and suspends itself after every vertex it
enters, every vertex it leaves and every edge it inspects.  A `Scheduler` resumes the coroutines in
the order in which they were suspended, on one thread, until all of them have finished; all
coroutines share the set of visited vertices and the traversal order.  `CooperativeDFS` spawns the
coroutines before it runs the scheduler, and a coroutine does not begin before it is resumed.

A coroutine is modelled by the values of its local variables and the point at which it is suspended;
what it does from there to its next suspension is one function, which may throw.

Main definitions:

* `CooperativeDfs.Graph`, `CooperativeDfs.Shared` — the graph, and what the coroutines share;
* `CooperativeDfs.Task`, `CooperativeDfs.Task.resume` — a coroutine, and its resumption;
* `CooperativeDfs.Scheduler`, `CooperativeDfs.Scheduler.run` — the scheduler, and its loop;
* `CooperativeDfs.spawnLoop`, `CooperativeDfs.cooperativeDFS` — the entry point.

Main results:

* `CooperativeDfs.turn_of_resume` — **inversion of a resumption**;
* `CooperativeDfs.run_mono` — the scheduler has at most one outcome;
* `CooperativeDfs.Scheduler.Returns.steps` — where the loop of the scheduler ends.
-/

import Mathlib.Algebra.Ring.Nat
import Mathlib.Data.Int.Notation
import Mathlib.Logic.Relation
import Mathlib.Tactic.Common

set_option relaxedAutoImplicit false
set_option autoImplicit false

namespace CooperativeDfs

/-! ### Graphs -/

/-- The conversion of a `std::size_t` to `int`. -/
def staticCastInt (x : ℕ) : ℤ := (x : ℤ).bmod (2 ^ 32)

theorem staticCastInt_of_lt {x : ℕ} (h : x < 2 ^ 31) : staticCastInt x = x := by
  have hlo : -((2 ^ 32 : ℕ) : ℤ) ≤ (x : ℤ) * 2 := by omega
  have hhi : (x : ℤ) * 2 < ((2 ^ 32 : ℕ) : ℤ) := by omega
  unfold staticCastInt
  exact Int.bmod_eq_of_le_mul_two hlo hhi

/-- A graph is given by its adjacency lists. -/
structure Graph where
  adj : List (List ℤ)

namespace Graph

/-- `graph.adj[vertex]`. -/
def edges (graph : Graph) (vertex : ℕ) : List ℤ := graph.adj.getD vertex []

/-- The number of vertices, as the source computes it. -/
def size (graph : Graph) : ℤ := staticCastInt graph.adj.length

/-- All adjacency entries are indices of vertices. -/
def Valid (graph : Graph) : Prop :=
  ∀ row ∈ graph.adj, ∀ w ∈ row, 0 ≤ w ∧ w < graph.adj.length

/-- There is an edge from `u` to `v`. -/
def Edge (graph : Graph) (u v : ℕ) : Prop := (v : ℤ) ∈ graph.edges u

/-- There is a path from `u` to `v`. -/
def Reaches (graph : Graph) : ℕ → ℕ → Prop := Relation.ReflTransGen graph.Edge

instance (graph : Graph) : Decidable graph.Valid :=
  inferInstanceAs (Decidable (∀ row ∈ graph.adj, ∀ w ∈ row, 0 ≤ w ∧ w < graph.adj.length))

theorem Valid.edge {graph : Graph} (h : graph.Valid) {u : ℕ} {w : ℤ} (hw : w ∈ graph.edges u) :
    0 ≤ w ∧ w < graph.adj.length := by
  rw [edges, List.getD_eq_getElem?_getD] at hw
  cases hrow : graph.adj[u]? with
  | none => simp [hrow] at hw
  | some row =>
      rw [hrow, Option.getD_some] at hw
      exact h row (List.mem_of_getElem? hrow) w hw

end Graph

/-! ### What the coroutines share -/

/-- The visited vertices, the traversal order, and the text written to the log, if there is one. -/
structure Shared where
  visited : List Bool
  traversalOrder : List ℕ
  log : Option String

namespace Shared

/-- `visited[vertex]`. -/
def isVisited (s : Shared) (vertex : ℕ) : Bool := s.visited.getD vertex false

/-- The text is written to the log. -/
def print (s : Shared) (text : String) : Shared := { s with log := s.log.map (· ++ text) }

/-- The vertex is marked and appended to the order. -/
def enter (s : Shared) (vertex : ℕ) : Shared :=
  { visited := s.visited.set vertex true
    traversalOrder := s.traversalOrder ++ [vertex]
    log := s.log.map (· ++ "enter vertex " ++ toString vertex ++ "\n") }

@[simp] theorem visited_print (s : Shared) (text : String) :
    (s.print text).visited = s.visited := rfl

@[simp] theorem traversalOrder_print (s : Shared) (text : String) :
    (s.print text).traversalOrder = s.traversalOrder := rfl

@[simp] theorem isVisited_print (s : Shared) (text : String) (v : ℕ) :
    (s.print text).isVisited v = s.isVisited v := rfl

@[simp] theorem traversalOrder_enter (s : Shared) (v : ℕ) :
    (s.enter v).traversalOrder = s.traversalOrder ++ [v] := rfl

@[simp] theorem length_visited_enter (s : Shared) (v : ℕ) :
    (s.enter v).visited.length = s.visited.length := List.length_set

theorem isVisited_enter {s : Shared} {v : ℕ} (h : v < s.visited.length) (u : ℕ) :
    (s.enter v).isVisited u = true ↔ u = v ∨ s.isVisited u = true := by
  by_cases huv : u = v
  · subst huv
    simp [isVisited, enter, List.getD_eq_getElem?_getD, h]
  · have hvu : ¬ v = u := fun heq => huv heq.symm
    simp [isVisited, enter, List.getD_eq_getElem?_getD, hvu, huv]

end Shared

/-! ### Coroutines -/

/-- Where a coroutine is suspended. -/
inductive Suspension
  /-- Before its first statement. -/
  | initial
  /-- About to continue at the head of its loop. -/
  | loopHead
  /-- After the edge to `toVertex` has been inspected. -/
  | inspected (toVertex : ℕ)
  /-- After its last statement. -/
  | final
  deriving DecidableEq

/-- A coroutine: its argument, its stack with the last entry first, and where it is suspended. -/
structure Task where
  startVertex : ℕ
  stack : List (ℕ × ℕ)
  suspendedAt : Suspension
  deriving DecidableEq

/-- The text of the exception. -/
def invalidVertex : String := "Graph contains invalid adjacent vertex index"

/-- `DfsCoroutine`, before its first statement. -/
def dfsCoroutine (startVertex : ℕ) : Task := ⟨startVertex, [], .initial⟩

/-- From the head of the loop to the next suspension. -/
def Task.loop (graph : Graph) (t : Task) (s : Shared) : Except String (Task × Shared) :=
  match t.stack with
  | [] => .ok ({ t with suspendedAt := .final }, s)
  | (vertex, nextEdgeIndex) :: below =>
      match (graph.edges vertex)[nextEdgeIndex]? with
      | none =>
          .ok ({ t with stack := below, suspendedAt := .loopHead },
            s.print ("leave vertex " ++ toString vertex ++ "\n"))
      | some toVertex =>
          if toVertex < 0 ∨ toVertex ≥ graph.size then .error invalidVertex
          else
            .ok ({ t with
                stack := (vertex, nextEdgeIndex + 1) :: below
                suspendedAt := .inspected toVertex.toNat },
              s.print ("inspect edge " ++ toString vertex ++ " -> " ++ toString toVertex ++ "\n"))

/-- From where the coroutine is suspended to its next suspension. -/
def Task.resume (graph : Graph) (t : Task) (s : Shared) : Except String (Task × Shared) :=
  match t.suspendedAt with
  | .initial =>
      .ok ({ t with stack := [(t.startVertex, 0)], suspendedAt := .loopHead },
        s.enter t.startVertex)
  | .loopHead => t.loop graph s
  | .inspected toVertex =>
      if s.isVisited toVertex then t.loop graph s
      else .ok ({ t with stack := (toVertex, 0) :: t.stack, suspendedAt := .loopHead }, s.enter toVertex)
  | .final => .ok (t, s)

/-! ### The scheduler -/

/-- The suspended coroutines in the order in which they are resumed, and what they share. -/
structure Scheduler where
  readyQueue : List Task
  shared : Shared

/-- `Spawn`, and likewise `Schedule`. -/
def Scheduler.spawn (s : Scheduler) (t : Task) : Scheduler :=
  { s with readyQueue := s.readyQueue ++ [t] }

/-- An iteration of the loop of `Run` with the coroutine `t`, where `rest` is the rest of the queue.
A coroutine that has finished is destroyed; otherwise it has scheduled itself. -/
def Scheduler.turn (graph : Graph) (t : Task) (rest : List Task) (s : Shared) :
    Except String Scheduler :=
  match t.resume graph s with
  | .error e => .error e
  | .ok (t', s') =>
      if t'.suspendedAt = .final then .ok ⟨rest, s'⟩ else .ok (Scheduler.spawn ⟨rest, s'⟩ t')

/-- `Run`, with a bound on the number of its iterations. -/
def Scheduler.run (graph : Graph) : ℕ → Scheduler → Option (Except String Shared)
  | 0, _ => none
  | fuel + 1, s =>
      match s.readyQueue with
      | [] => some (.ok s.shared)
      | t :: rest =>
          match Scheduler.turn graph t rest s.shared with
          | .error e => some (.error e)
          | .ok s' => Scheduler.run graph fuel s'

/-- `Run` ends with the given outcome. -/
def Scheduler.Returns (graph : Graph) (s : Scheduler) (r : Except String Shared) : Prop :=
  ∃ fuel, s.run graph fuel = some r

/-! ### The entry point -/

/-- The scheduler before anything has been spawned. -/
def Scheduler.empty (graph : Graph) (log : Option String) : Scheduler :=
  ⟨[], ⟨List.replicate graph.adj.length false, [], log⟩⟩

/-- The loop of `CooperativeDFS` over the vertices. -/
def spawnLoop (s : Scheduler) (vertices : List ℕ) : Scheduler :=
  vertices.foldl
    (fun s i => if s.shared.isVisited i then s else s.spawn (dfsCoroutine i)) s

/-- The values of the loop variable. -/
def Graph.loopRange (graph : Graph) : List ℕ := List.range graph.size.toNat

/-- `CooperativeDFS`, with a bound on the number of iterations of `Run`. -/
def cooperativeDFS (graph : Graph) (log : Option String) (fuel : ℕ) :
    Option (Except String (List ℕ)) :=
  let s := spawnLoop (.empty graph log) graph.loopRange
  (s.run graph fuel).map fun r => r.map fun shared => shared.traversalOrder

/-! ### What a resumption can do -/

/-- The effects of a resumption, one constructor for each.  A coroutine that finds the vertex at the
end of an inspected edge visited goes on from the head of its loop. -/
inductive Turn (graph : Graph) : Task → Shared → Task → Shared → Prop
  | start (v : ℕ) (stack : List (ℕ × ℕ)) (s : Shared) :
      Turn graph ⟨v, stack, .initial⟩ s ⟨v, [(v, 0)], .loopHead⟩ (s.enter v)
  | finish (v : ℕ) (s : Shared) : Turn graph ⟨v, [], .loopHead⟩ s ⟨v, [], .final⟩ s
  | leave (v vertex nextEdgeIndex : ℕ) (below : List (ℕ × ℕ)) (s : Shared) (text : String) :
      (graph.edges vertex).length ≤ nextEdgeIndex →
      Turn graph ⟨v, (vertex, nextEdgeIndex) :: below, .loopHead⟩ s ⟨v, below, .loopHead⟩
        (s.print text)
  | inspect (v vertex nextEdgeIndex toVertex : ℕ) (below : List (ℕ × ℕ)) (s : Shared) (text : String) :
      (graph.edges vertex)[nextEdgeIndex]? = some (toVertex : ℤ) → (toVertex : ℤ) < graph.size →
      Turn graph ⟨v, (vertex, nextEdgeIndex) :: below, .loopHead⟩ s
        ⟨v, (vertex, nextEdgeIndex + 1) :: below, .inspected toVertex⟩ (s.print text)
  | enter (v toVertex : ℕ) (stack : List (ℕ × ℕ)) (s : Shared) : s.isVisited toVertex = false →
      Turn graph ⟨v, stack, .inspected toVertex⟩ s ⟨v, (toVertex, 0) :: stack, .loopHead⟩
        (s.enter toVertex)
  | skip (v toVertex : ℕ) (stack : List (ℕ × ℕ)) (s s' : Shared) (t' : Task) :
      s.isVisited toVertex = true →
      Turn graph ⟨v, stack, .loopHead⟩ s t' s' → Turn graph ⟨v, stack, .inspected toVertex⟩ s t' s'

/-- What a coroutine does from the head of its loop does not depend on how it came there. -/
theorem loop_congr (graph : Graph) (v : ℕ) (stack : List (ℕ × ℕ)) (p q : Suspension) (s : Shared) :
    Task.loop graph ⟨v, stack, p⟩ s = Task.loop graph ⟨v, stack, q⟩ s := by
  cases stack <;> rfl

/-- Inversion of the loop. -/
theorem turn_of_loop {graph : Graph} {t' : Task} {v : ℕ} {stack : List (ℕ × ℕ)} {s s' : Shared}
    (h : Task.loop graph ⟨v, stack, .loopHead⟩ s = .ok (t', s')) :
    Turn graph ⟨v, stack, .loopHead⟩ s t' s' := by
  cases stack with
  | nil =>
      obtain ⟨rfl, rfl⟩ := Prod.mk.inj (Except.ok.inj h)
      exact Turn.finish v s
  | cons entry below =>
      obtain ⟨vertex, nextEdgeIndex⟩ := entry
      simp only [Task.loop] at h
      cases hto : (graph.edges vertex)[nextEdgeIndex]? with
      | none =>
          rw [hto] at h
          obtain ⟨rfl, rfl⟩ := Prod.mk.inj (Except.ok.inj h)
          exact Turn.leave v vertex nextEdgeIndex below s _ (List.getElem?_eq_none_iff.1 hto)
      | some toVertex =>
          rw [hto] at h
          simp only at h
          split_ifs at h with hbad
          obtain ⟨rfl, rfl⟩ := Prod.mk.inj (Except.ok.inj h)
          have hcast : ((toVertex.toNat : ℕ) : ℤ) = toVertex := Int.toNat_of_nonneg (by omega)
          refine Turn.inspect v vertex nextEdgeIndex toVertex.toNat below s _ ?_ ?_
          · rw [hto, hcast]
          · omega

/-- **Inversion of a resumption.** -/
theorem turn_of_resume {graph : Graph} {t t' : Task} {s s' : Shared}
    (hlive : t.suspendedAt ≠ .final) (h : t.resume graph s = .ok (t', s')) :
    Turn graph t s t' s' := by
  obtain ⟨v, stack, p⟩ := t
  cases p with
  | initial =>
      obtain ⟨rfl, rfl⟩ := Prod.mk.inj (Except.ok.inj h)
      exact Turn.start v stack s
  | loopHead => exact turn_of_loop h
  | inspected toVertex =>
      simp only [Task.resume] at h
      split_ifs at h with hvisited
      · rw [loop_congr graph v stack _ .loopHead] at h
        exact Turn.skip v toVertex stack s s' t' hvisited (turn_of_loop h)
      · obtain ⟨rfl, rfl⟩ := Prod.mk.inj (Except.ok.inj h)
        exact Turn.enter v toVertex stack s (by simpa using hvisited)
  | final => exact absurd rfl hlive

/-- A resumption throws only on an entry that is not the index of a vertex. -/
theorem exists_of_resume_error {graph : Graph} {t : Task} {s : Shared} {e : String}
    (h : t.resume graph s = .error e) :
    e = invalidVertex ∧
      ∃ vertex, ∃ toVertex ∈ graph.edges vertex, toVertex < 0 ∨ graph.size ≤ toVertex := by
  have hloop : ∀ p, Task.loop graph ⟨t.startVertex, t.stack, p⟩ s = .error e →
      e = invalidVertex ∧
        ∃ vertex, ∃ toVertex ∈ graph.edges vertex, toVertex < 0 ∨ graph.size ≤ toVertex := by
    intro p hp
    rw [Task.loop] at hp
    split at hp
    · simp at hp
    · split at hp
      · simp at hp
      · next toVertex hto =>
          split_ifs at hp with hbad
          exact ⟨(Except.error.inj hp).symm, _, toVertex, List.mem_of_getElem? hto, hbad⟩
  obtain ⟨v, stack, p⟩ := t
  cases p with
  | initial => simp [Task.resume] at h
  | loopHead => exact hloop _ h
  | inspected toVertex =>
      simp only [Task.resume] at h
      split_ifs at h
      exact hloop _ h
  | final => simp [Task.resume] at h

/-! ### Runs of the scheduler -/

/-- A larger bound does not change the outcome. -/
theorem run_mono {graph : Graph} {fuel k : ℕ} {s : Scheduler} {r : Except String Shared}
    (h : s.run graph fuel = some r) : s.run graph (fuel + k) = some r := by
  induction fuel generalizing s with
  | zero => simp [Scheduler.run] at h
  | succ fuel ih =>
      rw [Nat.add_right_comm]
      simp only [Scheduler.run] at h ⊢
      split at h
      · exact h
      · split at h
        · exact h
        · exact ih h

/-- **The scheduler has at most one outcome.** -/
theorem Scheduler.Returns.unique {graph : Graph} {s : Scheduler} {r r' : Except String Shared}
    (h : s.Returns graph r) (h' : s.Returns graph r') : r = r' := by
  obtain ⟨fuel, h⟩ := h
  obtain ⟨fuel', h'⟩ := h'
  have heq := run_mono (k := fuel') h
  rw [Nat.add_comm, run_mono (k := fuel) h'] at heq
  exact (Option.some.inj heq).symm

/-- An iteration of the loop of `Run` that does not throw. -/
inductive Scheduler.Next (graph : Graph) : Scheduler → Scheduler → Prop
  | turn {t : Task} {rest : List Task} {s : Shared} {q : Scheduler} :
      Scheduler.turn graph t rest s = .ok q → Scheduler.Next graph ⟨t :: rest, s⟩ q

/-- Iterations of the loop of `Run`. -/
def Scheduler.Steps (graph : Graph) : Scheduler → Scheduler → Prop :=
  Relation.ReflTransGen (Scheduler.Next graph)

/-- `Run` ends as it ends from what it comes to. -/
theorem Scheduler.Steps.returns {graph : Graph} {q q' : Scheduler} {r : Except String Shared}
    (h : q.Steps graph q') (hr : q'.Returns graph r) : q.Returns graph r := by
  induction h using Relation.ReflTransGen.head_induction_on with
  | refl => exact hr
  | head hnext _ ih =>
      cases hnext with
      | turn hturn =>
          obtain ⟨fuel, hfuel⟩ := ih
          refine ⟨fuel + 1, ?_⟩
          simp only [Scheduler.run, hturn]
          exact hfuel

/-- **Where `Run` ends**: its queue is empty, or the first coroutine of its queue throws. -/
theorem Scheduler.Returns.steps {graph : Graph} {q : Scheduler} {r : Except String Shared}
    (h : q.Returns graph r) :
    (∃ s, r = .ok s ∧ q.Steps graph ⟨[], s⟩) ∨
      ∃ e t rest s, r = .error e ∧ q.Steps graph ⟨t :: rest, s⟩ ∧ t.resume graph s = .error e := by
  obtain ⟨fuel, h⟩ := h
  induction fuel generalizing q with
  | zero => simp [Scheduler.run] at h
  | succ fuel ih =>
      obtain ⟨queue, s⟩ := q
      rw [Scheduler.run] at h
      cases queue with
      | nil => exact Or.inl ⟨s, (Option.some.inj h).symm, Relation.ReflTransGen.refl⟩
      | cons t rest =>
          simp only at h
          split at h
          · next e hturn =>
              refine Or.inr ⟨e, t, rest, s, (Option.some.inj h).symm, Relation.ReflTransGen.refl, ?_⟩
              rw [Scheduler.turn] at hturn
              split at hturn
              · next e' hresume => rw [hresume, Except.error.inj hturn]
              · split_ifs at hturn
          · next q' hturn =>
              have hnext : Scheduler.Next graph ⟨t :: rest, s⟩ q' := Scheduler.Next.turn hturn
              rcases ih h with ⟨s', hr, hsteps⟩ | ⟨e, t', rest', s', hr, hsteps, hresume⟩
              · exact Or.inl ⟨s', hr, Relation.ReflTransGen.head hnext hsteps⟩
              · exact Or.inr ⟨e, t', rest', s', hr, Relation.ReflTransGen.head hnext hsteps, hresume⟩

/-- Nothing has been visited when the coroutines are spawned, so that every vertex gets one. -/
theorem spawnLoop_eq {s : Scheduler} {vertices : List ℕ} (h : ∀ i, s.shared.isVisited i = false) :
    spawnLoop s vertices =
      { s with readyQueue := s.readyQueue ++ vertices.map dfsCoroutine } := by
  induction vertices generalizing s with
  | nil => simp [spawnLoop]
  | cons i vertices ih =>
      rw [spawnLoop, List.foldl_cons, h i, if_neg Bool.false_ne_true]
      refine (ih (s := s.spawn (dfsCoroutine i)) h).trans ?_
      simp [Scheduler.spawn]

theorem isVisited_empty (graph : Graph) (log : Option String) (i : ℕ) :
    (Scheduler.empty graph log).shared.isVisited i = false := by
  simp only [Scheduler.empty, Shared.isVisited, List.getD_eq_getElem?_getD]
  rw [List.getElem?_replicate]
  split_ifs <;> rfl

end CooperativeDfs
