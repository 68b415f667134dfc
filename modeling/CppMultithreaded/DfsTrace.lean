/-
**The trace of the traversal is well formed.**

A coroutine writes a line to the log for every vertex it enters or leaves and every edge it inspects.
The lines of all coroutines are interleaved; here they are kept as events, each with the coroutine that
it comes from, next to the text of the log.

Two invariants carry the results.  The events of one coroutine are a bracketing that is open exactly at
the vertices on its stack.  The events of one vertex are those of the coroutine that has the vertex on
its stack, up to the cursor of the entry, and no vertex is on two stacks.

Main definitions:

* `CooperativeDfs.Event`, `CooperativeDfs.Task.events`, `CooperativeDfs.Scheduler.trace` — the events,
  and the trace of a run;
* `CooperativeDfs.Nested`, `CooperativeDfs.Opened` — properly nested bracketings, and those that are
  still open at the vertices of a stack;
* `CooperativeDfs.WellTraced` — what is true of the trace of a run.

Main results:

* `CooperativeDfs.emission_of_turn` — inversion of a resumption, with its events;
* `CooperativeDfs.Words.turn`, `CooperativeDfs.Visits.turn` — **every turn keeps the two invariants**;
* `CooperativeDfs.trace_well_formed` — **every vertex that is reachable is entered, has its edges
  inspected in order and is left, once and by one coroutine, and the events of a coroutine are nested**,
  on a graph with fewer than `2 ^ 31` vertices;
* `CooperativeDfs.many_vertices_never_left` — with `2 ^ 31` vertices, a vertex is not left.
-/

import CppMultithreaded.DfsSingle
import CppMultithreaded.DfsThrow

set_option relaxedAutoImplicit false
set_option autoImplicit false

namespace CooperativeDfs

variable {graph : Graph} {starts : List ℕ} {s s' : Shared} {t t' : Task} {rest : List Task}
variable {q q' : Scheduler}

/-! ### Events -/

/-- A line of the log. -/
inductive Event
  | enter (vertex : ℕ)
  | inspect (vertex : ℕ) (toVertex : ℤ)
  | leave (vertex : ℕ)
  deriving DecidableEq

namespace Event

/-- The vertex that is entered or left, or out of which the edge leads. -/
def vertex : Event → ℕ
  | .enter v => v
  | .inspect v _ => v
  | .leave v => v

/-- The vertex that is entered. -/
def entered? : Event → Option ℕ
  | .enter v => some v
  | _ => none

/-- The line, as it is written. -/
def line : Event → String
  | .enter v => "enter vertex " ++ toString v ++ "\n"
  | .inspect v w => "inspect edge " ++ toString v ++ " -> " ++ toString w ++ "\n"
  | .leave v => "leave vertex " ++ toString v ++ "\n"

/-- The lines of some events. -/
def lines : List Event → String
  | [] => ""
  | e :: es => e.line ++ lines es

theorem lines_singleton (e : Event) : lines [e] = e.line := String.append_empty

theorem lines_append (es es' : List Event) : lines (es ++ es') = lines es ++ lines es' := by
  induction es with
  | nil => simp [lines]
  | cons e es ih => simp [lines, ih, String.append_assoc]

end Event

/-- What is written from the head of the loop to the next suspension. -/
def Task.loopEvents (graph : Graph) (t : Task) : List Event :=
  match t.stack with
  | [] => []
  | (vertex, nextEdgeIndex) :: _ =>
      match (graph.edges vertex)[nextEdgeIndex]? with
      | none => [.leave vertex]
      | some toVertex =>
          if toVertex < 0 ∨ toVertex ≥ graph.size then [] else [.inspect vertex toVertex]

/-- What is written from where the coroutine is suspended to its next suspension. -/
def Task.events (graph : Graph) (t : Task) (s : Shared) : List Event :=
  match t.suspendedAt with
  | .initial => [.enter t.startVertex]
  | .loopHead => t.loopEvents graph
  | .inspected toVertex => if s.isVisited toVertex then t.loopEvents graph else [.enter toVertex]
  | .final => []

/-- The events of a run, each with the start vertex of its coroutine. -/
def Scheduler.trace (graph : Graph) : ℕ → Scheduler → List (ℕ × Event)
  | 0, _ => []
  | fuel + 1, s =>
      match s.readyQueue with
      | [] => []
      | t :: rest =>
          (t.events graph s.shared).map (Prod.mk t.startVertex) ++
            match Scheduler.turn graph t rest s.shared with
            | .error _ => []
            | .ok s' => Scheduler.trace graph fuel s'

/-- What is written from the head of the loop is its event. -/
theorem log_of_loop (h : t.loop graph s = .ok (t', s')) :
    s'.log = s.log.map (· ++ Event.lines (t.loopEvents graph)) := by
  cases hstack : t.stack with
  | nil =>
      simp only [Task.loop, hstack] at h
      obtain ⟨rfl, rfl⟩ := Prod.mk.inj (Except.ok.inj h)
      simp [Task.loopEvents, hstack, Event.lines]
  | cons top below =>
      obtain ⟨vertex, nextEdgeIndex⟩ := top
      cases hto : (graph.edges vertex)[nextEdgeIndex]? with
      | none =>
          simp only [Task.loop, hstack, hto] at h
          obtain ⟨rfl, rfl⟩ := Prod.mk.inj (Except.ok.inj h)
          simp only [Task.loopEvents, hstack, hto, Event.lines_singleton]
          rfl
      | some toVertex =>
          simp only [Task.loop, hstack, hto] at h
          split_ifs at h with hbad
          obtain ⟨rfl, rfl⟩ := Prod.mk.inj (Except.ok.inj h)
          simp only [Task.loopEvents, hstack, hto, if_neg hbad, Event.lines_singleton]
          rfl

/-- **The text of the log is that of the events.** -/
theorem log_of_resume (h : t.resume graph s = .ok (t', s')) :
    s'.log = s.log.map (· ++ Event.lines (t.events graph s)) := by
  have henter : ∀ v, (s.enter v).log = s.log.map (· ++ Event.lines [.enter v]) := by
    intro v
    have hassoc : ∀ a b c d : String, a ++ b ++ c ++ d = a ++ (b ++ c ++ d) := by
      intro a b c d
      rw [String.append_assoc, String.append_assoc, String.append_assoc]
    rw [Event.lines_singleton]
    exact congrArg (fun f => s.log.map f) (funext fun text => hassoc text _ _ _)
  cases hp : t.suspendedAt with
  | initial =>
      simp only [Task.resume, hp] at h
      obtain ⟨rfl, rfl⟩ := Prod.mk.inj (Except.ok.inj h)
      simp only [Task.events, hp]
      exact henter _
  | loopHead =>
      simp only [Task.resume, hp] at h
      simp only [Task.events, hp]
      exact log_of_loop h
  | inspected toVertex =>
      simp only [Task.resume, hp] at h
      simp only [Task.events, hp]
      split_ifs at h ⊢ with hvisited
      · exact log_of_loop h
      · obtain ⟨rfl, rfl⟩ := Prod.mk.inj (Except.ok.inj h)
        exact henter _
  | final =>
      simp only [Task.resume, hp] at h
      obtain ⟨rfl, rfl⟩ := Prod.mk.inj (Except.ok.inj h)
      simp [Task.events, hp, Event.lines]

/-! ### What a resumption writes -/

/-- The effects of a resumption, with its events.  A coroutine that has begun may be suspended anywhere
when it goes on from the head of its loop. -/
inductive Emission (graph : Graph) : Task → Shared → Task → Shared → List Event → Prop
  | start (c : ℕ) (s : Shared) :
      Emission graph (dfsCoroutine c) s ⟨c, [(c, 0)], .loopHead⟩ (s.enter c) [.enter c]
  | finish (c : ℕ) (p : Suspension) (s : Shared) : p ≠ .initial →
      Emission graph ⟨c, [], p⟩ s ⟨c, [], .final⟩ s []
  | leave (c v k : ℕ) (below : List (ℕ × ℕ)) (p : Suspension) (s : Shared) (text : String) :
      p ≠ .initial → (graph.edges v).length ≤ k →
      Emission graph ⟨c, (v, k) :: below, p⟩ s ⟨c, below, .loopHead⟩ (s.print text) [.leave v]
  | inspect (c v k w : ℕ) (below : List (ℕ × ℕ)) (p : Suspension) (s : Shared) (text : String) :
      p ≠ .initial → (graph.edges v)[k]? = some (w : ℤ) →
      Emission graph ⟨c, (v, k) :: below, p⟩ s ⟨c, (v, k + 1) :: below, .inspected w⟩ (s.print text)
        [.inspect v w]
  | enter (c w : ℕ) (stack : List (ℕ × ℕ)) (s : Shared) : s.isVisited w = false →
      Emission graph ⟨c, stack, .inspected w⟩ s ⟨c, (w, 0) :: stack, .loopHead⟩ (s.enter w) [.enter w]

/-- **Inversion of a resumption**, with its events. -/
theorem emission_of_turn (h : Turn graph t s t' s') (hinit : t.suspendedAt = .initial → t.stack = []) :
    Emission graph t s t' s' (t.events graph s) := by
  induction h with
  | start v stack s =>
      obtain rfl : stack = [] := hinit rfl
      exact Emission.start v s
  | finish v s => exact Emission.finish v .loopHead s (by simp)
  | leave v vertex nextEdgeIndex below s text hlast =>
      have hevents : Task.events graph ⟨v, (vertex, nextEdgeIndex) :: below, .loopHead⟩ s =
          [.leave vertex] := by
        simp only [Task.events, Task.loopEvents, List.getElem?_eq_none hlast]
      rw [hevents]
      exact Emission.leave v vertex nextEdgeIndex below .loopHead s text (by simp) hlast
  | inspect v vertex nextEdgeIndex toVertex below s text hto hlt =>
      have hgood : ¬((toVertex : ℤ) < 0 ∨ (toVertex : ℤ) ≥ graph.size) := by omega
      have hevents : Task.events graph ⟨v, (vertex, nextEdgeIndex) :: below, .loopHead⟩ s =
          [.inspect vertex toVertex] := by
        simp only [Task.events, Task.loopEvents, hto, if_neg hgood]
      rw [hevents]
      exact Emission.inspect v vertex nextEdgeIndex toVertex below .loopHead s text (by simp) hto
  | enter v toVertex stack s hnew =>
      have hevents : Task.events graph ⟨v, stack, .inspected toVertex⟩ s = [.enter toVertex] := by
        simp only [Task.events, hnew]
        rfl
      rw [hevents]
      exact Emission.enter v toVertex stack s hnew
  | skip v toVertex stack s s' t' hvisited _ ih =>
      have hevents : Task.events graph ⟨v, stack, .inspected toVertex⟩ s =
          Task.events graph ⟨v, stack, .loopHead⟩ s := by
        simp only [Task.events, hvisited, if_true]
        rfl
      rw [hevents]
      -- the coroutine goes on from the head of its loop
      have hemission := ih (by simp)
      generalize Task.events graph ⟨v, stack, .loopHead⟩ s = es at hemission ⊢
      cases hemission with
      | finish => exact Emission.finish v _ s (by simp)
      | leave _ x k below _ _ text _ hlast => exact Emission.leave v x k below _ s text (by simp) hlast
      | inspect _ x k w below _ _ text _ hto =>
          exact Emission.inspect v x k w below _ s text (by simp) hto

theorem Emission.startVertex {es : List Event} (h : Emission graph t s t' s' es) :
    t'.startVertex = t.startVertex := by
  cases h <;> rfl

/-- A coroutine that has been resumed has begun, and has the vertex on its stack out of which it has
inspected an edge. -/
theorem Emission.begun {es : List Event} (h : Emission graph t s t' s' es) :
    t'.suspendedAt ≠ .initial ∧ ∀ w, t'.suspendedAt = .inspected w → t'.stack ≠ [] := by
  cases h <;> simp

/-! ### Bracketings -/

/-- A properly nested bracketing inside of the vertex `v`: edges out of `v` are inspected, and other
vertices are entered and left. -/
inductive Nested : ℕ → List Event → Prop
  | nil (v : ℕ) : Nested v []
  | inspect {v : ℕ} {es : List Event} (w : ℤ) : Nested v es → Nested v (es ++ [.inspect v w])
  | bracket {v u : ℕ} {es inner : List Event} : Nested v es → Nested u inner →
      Nested v (es ++ (.enter u :: inner ++ [.leave u]))

/-- A bracketing that is still open at the vertices of the stack, with the last one first; its outermost
vertex is `c`. -/
inductive Opened (c : ℕ) : List ℕ → List Event → Prop
  | closed {es : List Event} : Nested c es → Opened c [] (.enter c :: es ++ [.leave c])
  | base {es : List Event} : Nested c es → Opened c [c] (.enter c :: es)
  | push {v u : ℕ} {stack : List ℕ} {es inner : List Event} : Opened c (v :: stack) es →
      Nested u inner → Opened c (u :: v :: stack) (es ++ .enter u :: inner)

namespace Opened

variable {c u v : ℕ} {stack : List ℕ} {es : List Event}

/-- What is nested at the last vertex of the stack may go on. -/
theorem extend {es' : List Event} (h : Opened c (v :: stack) es)
    (hnested : ∀ inner, Nested v inner → Nested v (inner ++ es')) :
    Opened c (v :: stack) (es ++ es') := by
  cases h with
  | base hinner => exact Opened.base (hnested _ hinner)
  | push hes hinner =>
      rw [List.append_assoc, List.cons_append]
      exact Opened.push hes (hnested _ hinner)

/-- An edge is inspected. -/
theorem inspect (h : Opened c (v :: stack) es) (w : ℤ) : Opened c (v :: stack) (es ++ [.inspect v w]) :=
  h.extend fun _ hinner => Nested.inspect w hinner

/-- A vertex is entered. -/
theorem enter (h : Opened c (v :: stack) es) (u : ℕ) : Opened c (u :: v :: stack) (es ++ [.enter u]) :=
  Opened.push h (Nested.nil u)

/-- The last vertex is left. -/
theorem leave (h : Opened c (u :: stack) es) : Opened c stack (es ++ [.leave u]) := by
  cases h with
  | base hinner => exact Opened.closed hinner
  | push hes hinner =>
      rw [List.append_assoc, List.cons_append]
      exact hes.extend fun _ hbefore => Nested.bracket hbefore hinner

end Opened

/-- The events of a coroutine, where it is. -/
def Task.Word (t : Task) (es : List Event) : Prop :=
  (t.suspendedAt = .initial ∧ es = []) ∨
    ((t.suspendedAt ≠ .initial ∧ ∀ w, t.suspendedAt = .inspected w → t.stack ≠ []) ∧
      Opened t.startVertex (t.stack.map Prod.fst) es)

/-- A resumption goes on with the bracketing of the coroutine. -/
theorem Emission.word {es es' : List Event} (h : Emission graph t s t' s' es') (hword : t.Word es) :
    t'.Word (es ++ es') := by
  refine Or.inr ⟨h.begun, ?_⟩
  cases h with
  | start c s =>
      rcases hword with ⟨-, rfl⟩ | ⟨hbegun, -⟩
      · exact Opened.base (Nested.nil c)
      · exact absurd rfl hbegun.1
  | finish c p s hp =>
      obtain ⟨-, hopened⟩ := hword.resolve_left fun h => hp h.1
      rw [List.append_nil]
      exact hopened
  | leave c v k below p s text hp hlast =>
      obtain ⟨-, hopened⟩ := hword.resolve_left fun h => hp h.1
      exact Opened.leave hopened
  | inspect c v k w below p s text hp hto =>
      obtain ⟨-, hopened⟩ := hword.resolve_left fun h => hp h.1
      exact Opened.inspect hopened w
  | enter c w stack s hnew =>
      obtain ⟨⟨-, hstack⟩, hopened⟩ := hword.resolve_left (by simp)
      cases stack with
      | nil => exact absurd rfl (hstack w rfl)
      | cons entry below => exact Opened.enter hopened w

/-! ### The events of a coroutine, and of a vertex -/

/-- The events of the coroutine that starts at `c`. -/
def ofCoroutine (c : ℕ) (trace : List (ℕ × Event)) : List Event :=
  (trace.filter fun e => e.1 = c).map Prod.snd

/-- The events of a vertex, each with its coroutine. -/
def ofVertex (v : ℕ) (trace : List (ℕ × Event)) : List (ℕ × Event) :=
  trace.filter fun e => e.2.vertex = v

theorem ofCoroutine_append_self (c : ℕ) (trace : List (ℕ × Event)) (es : List Event) :
    ofCoroutine c (trace ++ es.map (Prod.mk c)) = ofCoroutine c trace ++ es := by
  simp [ofCoroutine, List.filter_map, Function.comp_def]

theorem ofCoroutine_append_of_ne {c c' : ℕ} (h : c' ≠ c) (trace : List (ℕ × Event)) (es : List Event) :
    ofCoroutine c (trace ++ es.map (Prod.mk c')) = ofCoroutine c trace := by
  simp [ofCoroutine, List.filter_map, Function.comp_def, h]

theorem ofVertex_append_self {v : ℕ} {e : Event} (h : e.vertex = v) (trace : List (ℕ × Event))
    (c : ℕ) : ofVertex v (trace ++ [(c, e)]) = ofVertex v trace ++ [(c, e)] := by
  simp [ofVertex, h]

theorem ofVertex_append_of_ne {v : ℕ} {e : Event} (h : e.vertex ≠ v) (trace : List (ℕ × Event))
    (c : ℕ) : ofVertex v (trace ++ [(c, e)]) = ofVertex v trace := by
  simp [ofVertex, h]

/-- The coroutines of the queue have different start vertices, and every coroutine that has left the
queue has closed its bracketing. -/
structure Words (starts : List ℕ) (trace : List (ℕ × Event)) (tasks : List Task) : Prop where
  nodup : (tasks.map Task.startVertex).Nodup
  word : ∀ t ∈ tasks, t.Word (ofCoroutine t.startVertex trace)
  closed : ∀ c ∈ starts, c ∈ tasks.map Task.startVertex ∨ Opened c [] (ofCoroutine c trace)

namespace Words

variable {trace : List (ℕ × Event)} {tasks tasks' : List Task}

/-- The order of the coroutines plays no role. -/
theorem perm (h : Words starts trace tasks) (hperm : tasks.Perm tasks') : Words starts trace tasks' := by
  have hmap := hperm.map Task.startVertex
  refine ⟨hmap.nodup_iff.1 h.nodup, fun t ht => h.word t (hperm.mem_iff.2 ht), ?_⟩
  intro c hc
  rw [← hmap.mem_iff]
  exact h.closed c hc

/-- One coroutine takes a turn. -/
theorem emission {es : List Event} (h : Words starts trace (t :: rest))
    (hemission : Emission graph t s t' s' es) :
    Words starts (trace ++ es.map (Prod.mk t.startVertex)) (t' :: rest) := by
  have hstart := hemission.startVertex
  have hnodup := h.nodup
  rw [List.map_cons, List.nodup_cons] at hnodup
  refine ⟨?_, ?_, ?_⟩
  · rw [List.map_cons, hstart, ← List.map_cons]
    exact h.nodup
  · intro t₀ ht₀
    rcases List.mem_cons.1 ht₀ with rfl | ht₀
    · rw [hstart, ofCoroutine_append_self]
      exact hemission.word (h.word t List.mem_cons_self)
    · have hne : t.startVertex ≠ t₀.startVertex :=
        fun heq => hnodup.1 (heq ▸ List.mem_map_of_mem ht₀)
      rw [ofCoroutine_append_of_ne hne]
      exact h.word t₀ (List.mem_cons_of_mem t ht₀)
  · intro c hc
    rw [List.map_cons, hstart, ← List.map_cons]
    rcases h.closed c hc with hmem | hclosed
    · exact Or.inl hmem
    · by_cases hmem : c ∈ (t :: rest).map Task.startVertex
      · exact Or.inl hmem
      · have hne : t.startVertex ≠ c := fun heq => hmem (heq ▸ List.mem_cons_self)
        rw [ofCoroutine_append_of_ne hne]
        exact Or.inr hclosed

/-- A coroutine that has finished may be destroyed. -/
theorem destroy (h : Words starts trace (t :: rest)) (hfinal : t.suspendedAt = .final)
    (hstack : t.stack = []) : Words starts trace rest := by
  have hnodup := h.nodup
  rw [List.map_cons, List.nodup_cons] at hnodup
  refine ⟨hnodup.2, fun t₀ ht₀ => h.word t₀ (List.mem_cons_of_mem t ht₀), ?_⟩
  intro c hc
  rcases h.closed c hc with hmem | hclosed
  · rcases List.mem_cons.1 hmem with rfl | hmem
    · have hword := (h.word t List.mem_cons_self).resolve_left (by simp [hfinal])
      rw [hstack] at hword
      exact Or.inr hword.2
    · exact Or.inl hmem
  · exact Or.inr hclosed

end Words

/-- What a coroutine does in its turn, the queue does up to its order. -/
theorem perm_of_turn (hlive : t.suspendedAt ≠ .final)
    (hinit : t.suspendedAt = .initial → t.stack = [])
    (hturn : Scheduler.turn graph t rest s = .ok q) :
    ∃ t' s', t.resume graph s = .ok (t', s') ∧ Emission graph t s t' s' (t.events graph s) ∧
      q.shared = s' ∧
      ((t'.suspendedAt = .final ∧ t'.stack = [] ∧ q.readyQueue = rest) ∨
        (t' :: rest).Perm q.readyQueue) := by
  obtain ⟨t', s', hresume, hq⟩ := turn_eq_ok hturn
  have hstep := turn_of_resume hlive hresume
  refine ⟨t', s', hresume, emission_of_turn hstep hinit, ?_⟩
  by_cases hfinal : t'.suspendedAt = .final
  · rw [hq, if_pos hfinal]
    exact ⟨rfl, Or.inl ⟨hfinal, hstep.stack_of_final hfinal, rfl⟩⟩
  · rw [hq, if_neg hfinal]
    exact ⟨rfl, Or.inr (List.perm_append_singleton t' rest).symm⟩

/-- **Every turn keeps the words of the coroutines.** -/
theorem Words.turn {trace : List (ℕ × Event)} (h : Words starts trace (t :: rest))
    (hlive : t.suspendedAt ≠ .final) (hinit : t.suspendedAt = .initial → t.stack = [])
    (hturn : Scheduler.turn graph t rest s = .ok q) :
    Words starts (trace ++ (t.events graph s).map (Prod.mk t.startVertex)) q.readyQueue := by
  obtain ⟨t', s', -, hemission, -, hqueue⟩ := perm_of_turn hlive hinit hturn
  have hwords := h.emission hemission
  rcases hqueue with ⟨hfinal, hstack, hrest⟩ | hperm
  · rw [hrest]
    exact hwords.destroy hfinal hstack
  · exact hwords.perm hperm

/-- The events of a vertex, up to its edge number `k`. -/
def Graph.eventsUpTo (graph : Graph) (v k : ℕ) : List Event :=
  .enter v :: ((graph.edges v).take k).map (Event.inspect v)

/-- All events of a vertex. -/
def Graph.eventsOf (graph : Graph) (v : ℕ) : List Event :=
  .enter v :: (graph.edges v).map (Event.inspect v) ++ [.leave v]

theorem Graph.eventsUpTo_succ {v k : ℕ} {w : ℤ} (h : (graph.edges v)[k]? = some w) :
    graph.eventsUpTo v (k + 1) = graph.eventsUpTo v k ++ [.inspect v w] := by
  rw [eventsUpTo, List.take_add_one, h]
  simp [eventsUpTo]

theorem Graph.eventsUpTo_leave {v k : ℕ} (h : (graph.edges v).length ≤ k) :
    graph.eventsUpTo v k ++ [.leave v] = graph.eventsOf v := by
  rw [eventsUpTo, List.take_of_length_le h, eventsOf]

/-- The vertices on the stacks. -/
def openVertices (tasks : List Task) : List ℕ := tasks.flatMap fun t => t.stack.map Prod.fst

/-- The events of the vertices in `order`, which have been entered. -/
structure Visits (graph : Graph) (starts : List ℕ) (trace : List (ℕ × Event)) (order : List ℕ)
    (tasks : List Task) : Prop where
  fresh : ∀ v, v ∉ order → ofVertex v trace = []
  /-- A vertex on a stack has had its edges up to the cursor inspected, by that coroutine. -/
  entry : ∀ t ∈ tasks, ∀ entry ∈ t.stack,
    ofVertex entry.1 trace = (graph.eventsUpTo entry.1 entry.2).map (Prod.mk t.startVertex)
  /-- Any other vertex that has been entered has been left. -/
  closed : ∀ v ∈ order, v ∈ openVertices tasks ∨
    ∃ c ∈ starts, ofVertex v trace = (graph.eventsOf v).map (Prod.mk c)
  /-- No vertex is on two stacks. -/
  once : (openVertices tasks).Nodup
  starts : ∀ t ∈ tasks, t.startVertex ∈ starts

namespace Visits

variable {trace : List (ℕ × Event)} {order : List ℕ} {tasks tasks' : List Task} {v k : ℕ}
variable {below : List (ℕ × ℕ)}

/-- The order of the coroutines plays no role. -/
theorem perm (h : Visits graph starts trace order tasks) (hperm : tasks.Perm tasks') :
    Visits graph starts trace order tasks' := by
  have hopen : (openVertices tasks).Perm (openVertices tasks') := hperm.flatMap_right _
  refine ⟨h.fresh, fun t ht => h.entry t (hperm.mem_iff.2 ht), ?_, hopen.nodup_iff.1 h.once,
    fun t ht => h.starts t (hperm.mem_iff.2 ht)⟩
  intro v hv
  rw [← hopen.mem_iff]
  exact h.closed v hv

theorem openVertices_cons (t : Task) (tasks : List Task) :
    openVertices (t :: tasks) = t.stack.map Prod.fst ++ openVertices tasks := List.flatMap_cons

theorem mem_openVertices {t : Task} (ht : t ∈ tasks) {entry : ℕ × ℕ} (hentry : entry ∈ t.stack) :
    entry.1 ∈ openVertices tasks :=
  List.mem_flatMap.2 ⟨t, ht, List.mem_map_of_mem hentry⟩

/-- A vertex that has not been entered is entered. -/
theorem enter (h : Visits graph starts trace order (t :: rest)) (hnew : v ∉ order)
    (hvisited : ∀ u ∈ openVertices (t :: rest), u ∈ order) (hstart : t'.startVertex = t.startVertex)
    (hstack : t'.stack = (v, 0) :: t.stack) :
    Visits graph starts (trace ++ [(t.startVertex, .enter v)]) (order ++ [v]) (t' :: rest) := by
  have hopen : openVertices (t' :: rest) = v :: openVertices (t :: rest) := by
    rw [openVertices_cons, openVertices_cons, hstack]
    rfl
  have hsame : ∀ u, u ≠ v → ofVertex u (trace ++ [(t.startVertex, .enter v)]) = ofVertex u trace :=
    fun u hu => ofVertex_append_of_ne (fun heq => hu heq.symm) trace _
  have hself : ofVertex v (trace ++ [(t.startVertex, .enter v)]) = [(t.startVertex, .enter v)] := by
    rw [ofVertex_append_self (by rfl), h.fresh v hnew, List.nil_append]
  -- the vertices on the stacks have been entered before
  have hne : ∀ u ∈ openVertices (t :: rest), u ≠ v := fun u hu heq => hnew (heq ▸ hvisited u hu)
  refine ⟨?_, ?_, ?_, ?_, ?_⟩
  · intro u hu
    rw [List.mem_append, List.mem_singleton, not_or] at hu
    rw [hsame u hu.2, h.fresh u hu.1]
  · intro t₀ ht₀ entry hentry
    rcases List.mem_cons.1 ht₀ with rfl | ht₀
    · rw [hstack] at hentry
      rcases List.mem_cons.1 hentry with rfl | hentry
      · rw [hself, hstart]
        rfl
      · rw [hsame _ (hne _ (mem_openVertices List.mem_cons_self hentry)), hstart]
        exact h.entry t List.mem_cons_self entry hentry
    · have ht₀' := List.mem_cons_of_mem t ht₀
      rw [hsame _ (hne _ (mem_openVertices ht₀' hentry))]
      exact h.entry t₀ ht₀' entry hentry
  · intro u hu
    rw [hopen]
    by_cases huv : u = v
    · exact Or.inl (huv ▸ List.mem_cons_self)
    · rw [hsame u huv]
      have hold : u ∈ order := by simpa [huv] using hu
      exact (h.closed u hold).imp_left (List.mem_cons_of_mem v)
  · rw [hopen, List.nodup_cons]
    exact ⟨fun hmem => hnew (hvisited v hmem), h.once⟩
  · intro t₀ ht₀
    rcases List.mem_cons.1 ht₀ with rfl | ht₀
    · rw [hstart]
      exact h.starts t List.mem_cons_self
    · exact h.starts t₀ (List.mem_cons_of_mem t ht₀)

/-- The vertex on top of a stack is nowhere else. -/
theorem ne_top (h : Visits graph starts trace order (t :: rest)) (hstack : t.stack = (v, k) :: below) :
    (∀ entry ∈ below, entry.1 ≠ v) ∧ ∀ t₀ ∈ rest, ∀ entry ∈ t₀.stack, entry.1 ≠ v := by
  have honce := h.once
  rw [openVertices_cons, hstack, List.map_cons, List.cons_append, List.nodup_cons, List.mem_append,
    not_or] at honce
  obtain ⟨⟨hbelow, hrest⟩, -⟩ := honce
  refine ⟨?_, ?_⟩
  · intro entry hentry heq
    have hmem : entry.1 ∈ below.map Prod.fst := List.mem_map_of_mem hentry
    rw [heq] at hmem
    exact hbelow hmem
  · intro t₀ ht₀ entry hentry heq
    have hmem := mem_openVertices ht₀ hentry
    rw [heq] at hmem
    exact hrest hmem

/-- The next edge of the vertex on top of the stack is inspected. -/
theorem inspect {w : ℤ} (h : Visits graph starts trace order (t :: rest))
    (hto : (graph.edges v)[k]? = some w) (hstart : t'.startVertex = t.startVertex)
    (hstack : t.stack = (v, k) :: below) (hstack' : t'.stack = (v, k + 1) :: below)
    (hv : v ∈ order) :
    Visits graph starts (trace ++ [(t.startVertex, .inspect v w)]) order (t' :: rest) := by
  have hopen : openVertices (t' :: rest) = openVertices (t :: rest) := by
    rw [openVertices_cons, openVertices_cons, hstack, hstack']
    rfl
  have hsame : ∀ u, u ≠ v → ofVertex u (trace ++ [(t.startVertex, .inspect v w)]) = ofVertex u trace :=
    fun u hu => ofVertex_append_of_ne (fun heq => hu heq.symm) trace _
  obtain ⟨hbelow, hrest⟩ := h.ne_top hstack
  refine ⟨?_, ?_, ?_, ?_, ?_⟩
  · intro u hu
    rw [hsame u fun heq => hu (heq ▸ hv), h.fresh u hu]
  · intro t₀ ht₀ entry hentry
    rcases List.mem_cons.1 ht₀ with rfl | ht₀
    · rw [hstack'] at hentry
      rw [hstart]
      rcases List.mem_cons.1 hentry with rfl | hentry
      · have htop := h.entry t List.mem_cons_self (v, k) (hstack ▸ List.mem_cons_self)
        rw [ofVertex_append_self (by rfl), htop, Graph.eventsUpTo_succ hto, List.map_append]
        rfl
      · rw [hsame _ (hbelow entry hentry)]
        exact h.entry t List.mem_cons_self entry (hstack ▸ List.mem_cons_of_mem _ hentry)
    · rw [hsame _ (hrest t₀ ht₀ entry hentry)]
      exact h.entry t₀ (List.mem_cons_of_mem t ht₀) entry hentry
  · intro u hu
    rw [hopen]
    by_cases huv : u = v
    · have htop : (v, k) ∈ t.stack := hstack ▸ List.mem_cons_self
      exact Or.inl (huv ▸ mem_openVertices List.mem_cons_self htop)
    · rw [hsame u huv]
      exact h.closed u hu
  · rw [hopen]
    exact h.once
  · intro t₀ ht₀
    rcases List.mem_cons.1 ht₀ with rfl | ht₀
    · rw [hstart]
      exact h.starts t List.mem_cons_self
    · exact h.starts t₀ (List.mem_cons_of_mem t ht₀)

/-- The vertex on top of the stack, which has no edge left, is left. -/
theorem leave (h : Visits graph starts trace order (t :: rest)) (hlast : (graph.edges v).length ≤ k)
    (hstart : t'.startVertex = t.startVertex) (hstack : t.stack = (v, k) :: below)
    (hstack' : t'.stack = below) (hv : v ∈ order) :
    Visits graph starts (trace ++ [(t.startVertex, .leave v)]) order (t' :: rest) := by
  have hopen : openVertices (t :: rest) = v :: openVertices (t' :: rest) := by
    rw [openVertices_cons, openVertices_cons, hstack, hstack']
    rfl
  have hsame : ∀ u, u ≠ v → ofVertex u (trace ++ [(t.startVertex, .leave v)]) = ofVertex u trace :=
    fun u hu => ofVertex_append_of_ne (fun heq => hu heq.symm) trace _
  have hmine : t.startVertex ∈ starts := h.starts t List.mem_cons_self
  obtain ⟨hbelow, hrest⟩ := h.ne_top hstack
  refine ⟨?_, ?_, ?_, ?_, ?_⟩
  · intro u hu
    rw [hsame u fun heq => hu (heq ▸ hv), h.fresh u hu]
  · intro t₀ ht₀ entry hentry
    rcases List.mem_cons.1 ht₀ with rfl | ht₀
    · rw [hstack'] at hentry
      rw [hstart, hsame _ (hbelow entry hentry)]
      exact h.entry t List.mem_cons_self entry (hstack ▸ List.mem_cons_of_mem _ hentry)
    · rw [hsame _ (hrest t₀ ht₀ entry hentry)]
      exact h.entry t₀ (List.mem_cons_of_mem t ht₀) entry hentry
  · intro u hu
    by_cases huv : u = v
    · -- all of its edges have been inspected
      have htop := h.entry t List.mem_cons_self (v, k) (hstack ▸ List.mem_cons_self)
      refine Or.inr ⟨t.startVertex, hmine, ?_⟩
      rw [huv, ofVertex_append_self (by rfl), htop, ← Graph.eventsUpTo_leave hlast, List.map_append]
      rfl
    · rw [hsame u huv]
      have hclosed := h.closed u hu
      rw [hopen] at hclosed
      exact hclosed.imp_left fun hmem => (List.mem_cons.1 hmem).resolve_left huv
  · have honce := h.once
    rw [hopen, List.nodup_cons] at honce
    exact honce.2
  · intro t₀ ht₀
    rcases List.mem_cons.1 ht₀ with rfl | ht₀
    · rw [hstart]
      exact hmine
    · exact h.starts t₀ (List.mem_cons_of_mem t ht₀)

/-- A coroutine may take a turn without an event, or be destroyed where its stack is empty. -/
theorem congr (h : Visits graph starts trace order tasks)
    (hopen : openVertices tasks' = openVertices tasks)
    (hmem : ∀ t ∈ tasks', ∃ t₀ ∈ tasks, t₀.startVertex = t.startVertex ∧ t₀.stack = t.stack) :
    Visits graph starts trace order tasks' := by
  refine ⟨h.fresh, ?_, ?_, ?_, ?_⟩
  · intro t ht entry hentry
    obtain ⟨t₀, ht₀, hstart, hstack⟩ := hmem t ht
    rw [← hstart]
    exact h.entry t₀ ht₀ entry (hstack ▸ hentry)
  · rw [hopen]
    exact h.closed
  · rw [hopen]
    exact h.once
  · intro t ht
    obtain ⟨t₀, ht₀, hstart, -⟩ := hmem t ht
    exact hstart ▸ h.starts t₀ ht₀

/-- **A resumption keeps the events of the vertices.** -/
theorem emission {es : List Event} (h : Visits graph starts trace s.traversalOrder (t :: rest))
    (hisVisited : ∀ v, s.isVisited v = true ↔ v ∈ s.traversalOrder)
    (hvisited : ∀ u ∈ openVertices (t :: rest), u ∈ s.traversalOrder)
    (hinit : t.suspendedAt = .initial → t.startVertex ∉ s.traversalOrder)
    (hemission : Emission graph t s t' s' es) :
    Visits graph starts (trace ++ es.map (Prod.mk t.startVertex)) s'.traversalOrder (t' :: rest) := by
  cases hemission with
  | start c s => exact h.enter (hinit rfl) hvisited rfl rfl
  | finish c p s hp =>
      rw [List.map_nil, List.append_nil]
      refine h.congr rfl fun t ht => ?_
      rcases List.mem_cons.1 ht with rfl | ht
      · exact ⟨_, List.mem_cons_self, rfl, rfl⟩
      · exact ⟨t, List.mem_cons_of_mem _ ht, rfl, rfl⟩
  | leave c v k below p s text hp hlast =>
      exact h.leave hlast rfl rfl rfl (hvisited v List.mem_cons_self)
  | inspect c v k w below p s text hp hto =>
      exact h.inspect hto rfl rfl rfl (hvisited v List.mem_cons_self)
  | enter c w stack s hnew =>
      refine h.enter ?_ hvisited rfl rfl
      intro hw
      rw [(hisVisited w).2 hw] at hnew
      exact Bool.noConfusion hnew

end Visits

/-! ### The trace of a run -/

/-- The trace so far, where the log was `log` at first. -/
structure Traced (graph : Graph) (starts : List ℕ) (log : Option String) (trace : List (ℕ × Event))
    (q : Scheduler) : Prop where
  sound : Sound graph starts q
  words : Words starts trace q.readyQueue
  visits : Visits graph starts trace q.shared.traversalOrder q.readyQueue
  coroutine : ∀ e ∈ trace, e.1 ∈ starts
  order : trace.filterMap (fun e => e.2.entered?) = q.shared.traversalOrder
  log : q.shared.log = log.map (· ++ Event.lines (trace.map Prod.snd))

/-- The vertices that a resumption enters are those it appends to the order. -/
theorem Emission.order {es : List Event} (h : Emission graph t s t' s' es) :
    s'.traversalOrder = s.traversalOrder ++ es.filterMap Event.entered? := by
  cases h <;> simp [Event.entered?]

/-- A coroutine that has not begun has not been entered. -/
theorem Sound.head_fresh (h : Sound graph starts ⟨t :: rest, s⟩) (hinit : t.suspendedAt = .initial) :
    t.startVertex ∉ s.traversalOrder := by
  obtain ⟨fresh, live, hqueue, hlive, hp, -⟩ := h
  cases fresh with
  | nil =>
      rw [List.map_nil, List.nil_append] at hqueue
      exact absurd hinit (hlive t (hqueue ▸ List.mem_cons_self)).1
  | cons v fresh =>
      obtain ⟨rfl, -⟩ := List.cons.inj hqueue
      exact hp.notMem

theorem Sound.isVisited (h : Sound graph starts q) (v : ℕ) :
    q.shared.isVisited v = true ↔ v ∈ q.shared.traversalOrder := by
  obtain ⟨fresh, live, -, -, hp, -⟩ := h
  exact hp.isVisited v

theorem Sound.openVertices (h : Sound graph starts q) :
    ∀ u ∈ openVertices q.readyQueue, u ∈ q.shared.traversalOrder := by
  obtain ⟨fresh, live, -, -, -, hc⟩ := h
  intro u hu
  obtain ⟨t, ht, hu⟩ := List.mem_flatMap.1 hu
  obtain ⟨entry, hentry, rfl⟩ := List.mem_map.1 hu
  exact hc.stack t ht entry hentry

/-- **Every turn keeps the invariants of the trace.** -/
theorem Traced.turn {log : Option String} {trace : List (ℕ × Event)}
    (h : Traced graph starts log trace ⟨t :: rest, s⟩)
    (hturn : Scheduler.turn graph t rest s = .ok q) :
    Traced graph starts log (trace ++ (t.events graph s).map (Prod.mk t.startVertex)) q := by
  obtain ⟨hlive, hinit⟩ := h.sound.head
  obtain ⟨t', s', hresume, hemission, hshared, hqueue⟩ := perm_of_turn hlive hinit hturn
  have hvisits := h.visits.emission h.sound.isVisited h.sound.openVertices h.sound.head_fresh hemission
  refine ⟨h.sound.turn hturn, h.words.turn hlive hinit hturn, ?_, ?_, ?_, ?_⟩
  · rw [hshared]
    rcases hqueue with ⟨-, hstack, hrest⟩ | hperm
    · rw [hrest]
      refine hvisits.congr ?_ fun t₀ ht₀ => ⟨t₀, List.mem_cons_of_mem t' ht₀, rfl, rfl⟩
      rw [Visits.openVertices_cons, hstack]
      rfl
    · exact hvisits.perm hperm
  · intro e he
    rcases List.mem_append.1 he with he | he
    · exact h.coroutine e he
    · obtain ⟨x, -, rfl⟩ := List.mem_map.1 he
      exact h.visits.starts t List.mem_cons_self
  · rw [List.filterMap_append, h.order, hshared, hemission.order, List.filterMap_map]
    rfl
  · rw [hshared, log_of_resume hresume, h.log, Option.map_map, List.map_append, Event.lines_append,
      List.map_map]
    congr 1
    funext text
    simp [String.append_assoc, Function.comp_def]

/-- **The invariants hold where `Run` has returned.** -/
theorem Traced.run {log : Option String} {trace : List (ℕ × Event)} {fuel : ℕ}
    (h : Traced graph starts log trace q) (hr : q.run graph fuel = some (.ok s)) :
    Traced graph starts log (trace ++ q.trace graph fuel) ⟨[], s⟩ := by
  induction fuel generalizing q trace with
  | zero => simp [Scheduler.run] at hr
  | succ fuel ih =>
      obtain ⟨queue, s₀⟩ := q
      unfold Scheduler.run at hr
      unfold Scheduler.trace
      cases queue with
      | nil =>
          obtain rfl := Except.ok.inj (Option.some.inj hr)
          simpa using h
      | cons t rest =>
          cases hturn : Scheduler.turn graph t rest s₀ with
          | error e => simp [hturn] at hr
          | ok q' =>
              simp only [hturn] at hr ⊢
              rw [← List.append_assoc]
              exact ih (h.turn hturn) hr

/-- Nothing has been written before `Run`. -/
theorem traced_spawnAll (hnodup : starts.Nodup) (hlt : ∀ v ∈ starts, (v : ℤ) < graph.size)
    (log : Option String) : Traced graph starts log [] (spawnAll (.empty graph log) starts) := by
  have hqueue : (spawnAll (.empty graph log) starts).readyQueue = starts.map dfsCoroutine := by
    rw [spawnAll_eq]
    rfl
  have hshared : (spawnAll (.empty graph log) starts).shared = (Scheduler.empty graph log).shared := by
    rw [spawnAll_eq]
  have hstart : (starts.map dfsCoroutine).map Task.startVertex = starts := by
    rw [List.map_map]
    exact List.map_id starts
  have hopen : openVertices (starts.map dfsCoroutine) = [] := by
    rw [openVertices, List.flatMap_map]
    exact List.flatMap_eq_nil_iff.2 fun v _ => rfl
  refine ⟨sound_spawnAll hnodup hlt log, ?_, ?_, by simp, ?_, ?_⟩
  · rw [hqueue]
    refine ⟨by rwa [hstart], ?_, fun c hc => Or.inl (by rwa [hstart])⟩
    intro t ht
    obtain ⟨v, -, rfl⟩ := List.mem_map.1 ht
    exact Or.inl ⟨rfl, rfl⟩
  · rw [hqueue, hshared]
    refine ⟨fun _ _ => rfl, ?_, fun v hv => absurd hv List.not_mem_nil, ?_, ?_⟩
    · intro t ht entry hentry
      obtain ⟨v, -, rfl⟩ := List.mem_map.1 ht
      exact absurd hentry List.not_mem_nil
    · rw [hopen]
      exact List.nodup_nil
    · intro t ht
      obtain ⟨v, hv, rfl⟩ := List.mem_map.1 ht
      exact hv
  · rw [hshared]
    rfl
  · rw [hshared]
    simp [Scheduler.empty, Event.lines]

/-- The trace of a run that ends with `s`, from the start vertices, is well formed. -/
structure WellTraced (graph : Graph) (starts : List ℕ) (log : Option String) (s : Shared)
    (trace : List (ℕ × Event)) : Prop where
  /-- The events of a vertex that is reachable: it is entered, its edges are inspected in their order,
  and it is left, all by one coroutine. -/
  vertex : ∀ v, (∃ u ∈ starts, graph.Reaches u v) →
    ∃ c ∈ starts, ofVertex v trace = (graph.eventsOf v).map (Prod.mk c)
  /-- There are no other events. -/
  only : ∀ e ∈ trace, e.1 ∈ starts ∧ ∃ u ∈ starts, graph.Reaches u e.2.vertex
  /-- The events of a coroutine are properly nested inside of its start vertex. -/
  nested : ∀ c ∈ starts, ∃ inner, Nested c inner ∧
    ofCoroutine c trace = .enter c :: inner ++ [.leave c]
  order : trace.filterMap (fun e => e.2.entered?) = s.traversalOrder
  /-- The log is the text of the events. -/
  log : s.log = log.map (· ++ Event.lines (trace.map Prod.snd))

theorem Traced.wellTraced {log : Option String} {trace : List (ℕ × Event)}
    (h : Traced graph starts log trace ⟨[], s⟩) : WellTraced graph starts log s trace := by
  have hmem := fun v => h.sound.mem_iff (v := v)
  refine ⟨?_, ?_, ?_, h.order, h.log⟩
  · intro v hv
    exact (h.visits.closed v ((hmem v).2 hv)).resolve_left List.not_mem_nil
  · intro e he
    refine ⟨h.coroutine e he, (hmem _).1 ?_⟩
    by_contra hnot
    have hnone := h.visits.fresh _ hnot
    have hin : e ∈ ofVertex e.2.vertex trace := List.mem_filter.2 ⟨he, by simp⟩
    rw [hnone] at hin
    exact absurd hin List.not_mem_nil
  · intro c hc
    cases h.words.closed c hc with
    | inl hmem => exact absurd hmem List.not_mem_nil
    | inr hopened =>
        generalize ofCoroutine c trace = es at hopened
        cases hopened with
        | closed hinner => exact ⟨_, hinner, rfl⟩

/-- **The trace of the traversal is well formed.** -/
theorem trace_well_formed (graph : Graph) (hsize : graph.adj.length < 2 ^ 31) (hvalid : graph.Valid)
    (starts : List ℕ) (hnodup : starts.Nodup) (hstarts : ∀ v ∈ starts, v < graph.adj.length)
    (log : Option String) :
    ∃ fuel s, (spawnAll (.empty graph log) starts).run graph fuel = some (.ok s) ∧
      WellTraced graph starts log s ((spawnAll (.empty graph log) starts).trace graph fuel) := by
  have hcount : graph.size = graph.adj.length := staticCastInt_of_lt hsize
  have hlt : ∀ v ∈ starts, (v : ℤ) < graph.size := by
    intro v hv
    rw [hcount]
    exact_mod_cast hstarts v hv
  obtain ⟨s, ⟨fuel, hr⟩, -⟩ := (sound_spawnAll hnodup hlt log).exists_ok hvalid hcount
  have htraced := (traced_spawnAll hnodup hlt log).run hr
  exact ⟨fuel, s, hr, htraced.wellTraced⟩

/-- The coroutine that starts at `0` comes to the start vertex of the other one. -/
theorem trace_well_formed_three_vertices :
    let graph : Graph := ⟨[[1, 1], [2], []]⟩
    ∃ fuel s, (spawnAll (.empty graph (some "")) [2, 0]).run graph fuel = some (.ok s) ∧
      WellTraced graph [2, 0] (some "") s ((spawnAll (.empty graph (some "")) [2, 0]).trace graph fuel) :=
  trace_well_formed ⟨[[1, 1], [2], []]⟩ (by decide) (by decide) [2, 0] (by decide) (by decide) (some "")

/-- A coroutine that throws at its first edge has only entered its start vertex. -/
theorem trace_of_size_le {start : ℕ} {x : ℤ} (s : Shared) (hedge : (graph.edges start)[0]? = some x)
    (hx : graph.size ≤ x) (fuel : ℕ) :
    ∀ e ∈ Scheduler.trace graph fuel (Scheduler.spawn ⟨[], s⟩ (dfsCoroutine start)),
      e = (start, Event.enter start) := by
  intro e he
  cases fuel with
  | zero => exact absurd he List.not_mem_nil
  | succ fuel =>
      have hmem : e ∈ (start, Event.enter start) ::
          Scheduler.trace graph fuel ⟨[⟨start, [(start, 0)], .loopHead⟩], s.enter start⟩ := he
      refine (List.mem_cons.1 hmem).resolve_right fun hrest => ?_
      cases fuel with
      | zero => exact absurd hrest List.not_mem_nil
      | succ fuel =>
          have hbad : x < 0 ∨ x ≥ graph.size := Or.inr hx
          simp [Scheduler.trace, Scheduler.turn, Task.resume, Task.events, Task.loop, Task.loopEvents,
            hedge, hbad] at hrest

/-- **With `2 ^ 31` vertices, a vertex is not left**: the coroutine throws at its first edge. -/
theorem many_vertices_never_left :
    manyVertices.Valid ∧ 0 < manyVertices.adj.length ∧
      ∀ fuel, (0, Event.leave 0) ∉
        (spawnAll (.empty manyVertices (some "")) [0]).trace manyVertices fuel := by
  refine ⟨valid_manyVertices, ?_, ?_⟩
  · rw [length_manyVertices]
    decide
  · intro fuel hmem
    have heq := trace_of_size_le (Scheduler.empty manyVertices (some "")).shared edge_manyVertices
      size_manyVertices_le fuel _ hmem
    simp at heq

end CooperativeDfs
