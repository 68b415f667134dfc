/-
**The cooperative coroutines visit exactly the reachable vertices, each once.**

Every coroutine appends its start vertex to the traversal order without looking at the visited set.
That no vertex comes twice rests on the order of the queue: the coroutines that have not begun stay
in front of the others, so that all start vertices are appended before any edge is inspected.  That no
reachable vertex is missed is an invariant over all stacks at once: an edge out of a visited vertex
leads to a visited vertex, or some coroutine has still to inspect it, or has inspected it and has
still to look at the visited set.

The scheduler stops because every turn enters a vertex or uses up one of the edges on the stacks.

Main definitions:

* `CooperativeDfs.Progress` — the invariant of what the coroutines share;
* `CooperativeDfs.Covers` — the invariant of the stacks;
* `CooperativeDfs.Sound` — the invariant of the scheduler.

Main results:

* `CooperativeDfs.Sound.turn` — **every turn keeps the invariant**;
* `CooperativeDfs.Sound.exists_returns` — the scheduler stops;
* `CooperativeDfs.coroutines_visit_reachable` — **the coroutines visit exactly the vertices that are
  reachable from their start vertices, each once**, on a graph with fewer than `2 ^ 31` vertices;
* `CooperativeDfs.too_many_vertices` — a graph with `2 ^ 31` vertices is not visited at all.
-/

import CppMultithreaded.DfsModel
import Mathlib.Data.List.Nodup
import Mathlib.Data.List.Perm.Subperm
import Mathlib.Data.List.Range
import Mathlib.Data.Prod.Lex
import Mathlib.Order.WellFounded

set_option relaxedAutoImplicit false
set_option autoImplicit false

namespace CooperativeDfs

variable {graph : Graph} {starts fresh : List ℕ} {s s' : Shared} {t t' : Task} {rest : List Task}
variable {v : ℕ}

theorem staticCastInt_le (x : ℕ) : staticCastInt x ≤ x := by
  have hle : ∀ m : ℕ, (x : ℤ).bmod m ≤ x := by
    intro m
    have hmod : (x : ℤ) % m ≤ x := by exact_mod_cast Nat.mod_le x m
    rw [Int.bmod_eq_emod]
    split_ifs
    · omega
    · omega
  exact hle _

theorem Graph.size_le (graph : Graph) : graph.size ≤ graph.adj.length := staticCastInt_le _

/-! ### What the coroutines share -/

/-- The invariant of what the coroutines share, where the coroutines of `fresh` have not begun. -/
structure Progress (graph : Graph) (starts fresh : List ℕ) (s : Shared) : Prop where
  length : s.visited.length = graph.adj.length
  /-- The order lists the visited vertices. -/
  isVisited : ∀ v, s.isVisited v = true ↔ v ∈ s.traversalOrder
  /-- No vertex comes twice, and none of `fresh` has come. -/
  nodup : (s.traversalOrder ++ fresh).Nodup
  bound : ∀ v ∈ s.traversalOrder ++ fresh, (v : ℤ) < graph.size
  /-- The start vertices come first. -/
  startsFirst : starts <+: s.traversalOrder ++ fresh
  reached : ∀ v ∈ s.traversalOrder ++ fresh, ∃ u ∈ starts, graph.Reaches u v

namespace Progress

theorem print (h : Progress graph starts fresh s) (text : String) :
    Progress graph starts fresh (s.print text) :=
  ⟨h.length, h.isVisited, h.nodup, h.bound, h.startsFirst, h.reached⟩

theorem lt_length (h : Progress graph starts fresh s) (hv : v ∈ s.traversalOrder ++ fresh) :
    v < graph.adj.length := by
  have hlt := h.bound v hv
  have hle := graph.size_le
  omega

/-- A vertex that has not been visited may become the next start vertex. -/
theorem push (h : Progress graph starts [] s) (hv : s.isVisited v = false)
    (hlt : (v : ℤ) < graph.size) (hr : ∃ u ∈ starts, graph.Reaches u v) :
    Progress graph starts [v] s := by
  have hnot : v ∉ s.traversalOrder := by
    intro hmem
    rw [(h.isVisited v).2 hmem] at hv
    exact Bool.noConfusion hv
  have hnodup := h.nodup
  have hstarts := h.startsFirst
  rw [List.append_nil] at hnodup hstarts
  refine ⟨h.length, h.isVisited, ?_, ?_, hstarts.trans (List.prefix_append _ _), ?_⟩
  · exact hnodup.append (List.nodup_singleton v) (List.disjoint_singleton.2 hnot)
  · intro u hu
    rcases List.mem_append.1 hu with hu | hu
    · exact h.bound u (List.mem_append_left _ hu)
    · rw [List.mem_singleton.1 hu]
      exact hlt
  · intro u hu
    rcases List.mem_append.1 hu with hu | hu
    · exact h.reached u (List.mem_append_left _ hu)
    · rw [List.mem_singleton.1 hu]
      exact hr

/-- The next start vertex is entered. -/
theorem enter (h : Progress graph starts (v :: fresh) s) :
    Progress graph starts fresh (s.enter v) := by
  have hlt : v < s.visited.length := by
    rw [h.length]
    exact h.lt_length (List.mem_append_right _ List.mem_cons_self)
  have happend : (s.enter v).traversalOrder ++ fresh = s.traversalOrder ++ v :: fresh := by simp
  refine ⟨?_, ?_, ?_, ?_, ?_, ?_⟩
  · rw [Shared.length_visited_enter, h.length]
  · intro u
    rw [Shared.isVisited_enter hlt, h.isVisited, Shared.traversalOrder_enter, List.mem_append,
      List.mem_singleton, or_comm]
  · rw [happend]
    exact h.nodup
  · rw [happend]
    exact h.bound
  · rw [happend]
    exact h.startsFirst
  · rw [happend]
    exact h.reached

/-- The vertex that is entered has not been visited. -/
theorem notMem (h : Progress graph starts (v :: fresh) s) : v ∉ s.traversalOrder := by
  intro hmem
  exact (List.disjoint_of_nodup_append h.nodup) hmem List.mem_cons_self

theorem length_le (h : Progress graph starts fresh s) :
    s.traversalOrder.length + fresh.length ≤ graph.adj.length := by
  rw [← List.length_append, ← List.length_range (n := graph.adj.length)]
  refine (List.subperm_of_subset h.nodup ?_).length_le
  intro u hu
  exact List.mem_range.2 (h.lt_length hu)

end Progress

/-! ### The stacks -/

/-- The coroutine has still to inspect the edge number `j` of `v`, or has inspected the edge to `w`
last. -/
def Task.Pending (t : Task) (v j w : ℕ) : Prop :=
  (∃ k ≤ j, (v, k) ∈ t.stack) ∨ t.suspendedAt = .inspected w

/-- The invariant of the stacks, where the vertices of `order` have been visited. -/
structure Covers (graph : Graph) (starts order : List ℕ) (tasks : List Task) : Prop where
  /-- There are only visited vertices on the stacks. -/
  stack : ∀ t ∈ tasks, ∀ entry ∈ t.stack, entry.1 ∈ order
  /-- An edge that has been inspected leads to a vertex that is reachable. -/
  inspected : ∀ t ∈ tasks, ∀ w, t.suspendedAt = .inspected w →
    (w : ℤ) < graph.size ∧ ∃ u ∈ starts, graph.Reaches u w
  /-- An edge out of a visited vertex leads to a visited vertex, or is pending. -/
  pending : ∀ v ∈ order, ∀ j w : ℕ, (graph.edges v)[j]? = some (w : ℤ) →
    w ∈ order ∨ ∃ t ∈ tasks, t.Pending v j w

namespace Covers

variable {order order' : List ℕ} {tasks tasks' : List Task}

/-- The order of the coroutines plays no role. -/
theorem congr (h : Covers graph starts order tasks) (hmem : ∀ t, t ∈ tasks ↔ t ∈ tasks') :
    Covers graph starts order tasks' := by
  refine ⟨fun t ht => h.stack t ((hmem t).2 ht), fun t ht => h.inspected t ((hmem t).2 ht), ?_⟩
  intro v hv j w hw
  rcases h.pending v hv j w hw with hw | ⟨t, ht, hp⟩
  · exact Or.inl hw
  · exact Or.inr ⟨t, (hmem t).1 ht, hp⟩

/-- One coroutine takes a turn.  What was pending with it is visited then, or is pending with it
still. -/
theorem replace (h : Covers graph starts order (t :: rest)) (hsub : order ⊆ order')
    (hstack : ∀ entry ∈ t'.stack, entry.1 ∈ order')
    (hinspected : ∀ w, t'.suspendedAt = .inspected w →
      (w : ℤ) < graph.size ∧ ∃ u ∈ starts, graph.Reaches u w)
    (hpending : ∀ v ∈ order, ∀ j w : ℕ, (graph.edges v)[j]? = some (w : ℤ) → t.Pending v j w →
      w ∈ order' ∨ t'.Pending v j w)
    (hnew : ∀ v ∈ order', v ∉ order → (v, 0) ∈ t'.stack) :
    Covers graph starts order' (t' :: rest) := by
  refine ⟨?_, ?_, ?_⟩
  · intro t₀ ht₀ entry hentry
    rcases List.mem_cons.1 ht₀ with rfl | ht₀
    · exact hstack entry hentry
    · exact hsub (h.stack t₀ (List.mem_cons_of_mem t ht₀) entry hentry)
  · intro t₀ ht₀ w hw
    rcases List.mem_cons.1 ht₀ with rfl | ht₀
    · exact hinspected w hw
    · exact h.inspected t₀ (List.mem_cons_of_mem t ht₀) w hw
  · intro v hv j w hw
    by_cases hold : v ∈ order
    · rcases h.pending v hold j w hw with hin | ⟨t₀, ht₀, hp⟩
      · exact Or.inl (hsub hin)
      · rcases List.mem_cons.1 ht₀ with rfl | ht₀
        · rcases hpending v hold j w hw hp with hin | hp
          · exact Or.inl hin
          · exact Or.inr ⟨t', List.mem_cons_self, hp⟩
        · exact Or.inr ⟨t₀, List.mem_cons_of_mem t' ht₀, hp⟩
    · exact Or.inr ⟨t', List.mem_cons_self, Or.inl ⟨0, Nat.zero_le j, hnew v hv hold⟩⟩

/-- A coroutine that has finished may be destroyed. -/
theorem destroy (h : Covers graph starts order (t :: rest)) (hstack : t.stack = [])
    (hfinal : t.suspendedAt = .final) : Covers graph starts order rest := by
  refine ⟨fun t₀ ht₀ => h.stack t₀ (List.mem_cons_of_mem t ht₀),
    fun t₀ ht₀ => h.inspected t₀ (List.mem_cons_of_mem t ht₀), ?_⟩
  intro v hv j w hw
  rcases h.pending v hv j w hw with hin | ⟨t₀, ht₀, hp⟩
  · exact Or.inl hin
  · rcases List.mem_cons.1 ht₀ with rfl | ht₀
    · rcases hp with ⟨k, -, hk⟩ | hp
      · simp [hstack] at hk
      · simp [hfinal] at hp
    · exact Or.inr ⟨t₀, ht₀, hp⟩

/-- A vertex is entered, which is the one the coroutine has inspected an edge to, if it has. -/
theorem enter {u : ℕ} {stack : List (ℕ × ℕ)} {p : Suspension}
    (h : Covers graph starts order (⟨u, stack, p⟩ :: rest))
    (hp : ∀ w, p = .inspected w → w = v) :
    Covers graph starts (order ++ [v]) (⟨u, (v, 0) :: stack, .loopHead⟩ :: rest) := by
  have hsub : order ⊆ order ++ [v] := List.subset_append_left order [v]
  refine h.replace hsub ?_ ?_ ?_ ?_
  · intro entry hentry
    rcases List.mem_cons.1 hentry with rfl | hentry
    · exact List.mem_append_right order List.mem_cons_self
    · exact hsub (h.stack _ List.mem_cons_self entry hentry)
  · intro w hw
    simp at hw
  · rintro x - j w - (⟨k, hk, hmem⟩ | hw)
    · exact Or.inr (Or.inl ⟨k, hk, List.mem_cons_of_mem _ hmem⟩)
    · rw [hp w hw]
      exact Or.inl (List.mem_append_right order List.mem_cons_self)
  · intro x hx hnot
    rcases List.mem_append.1 hx with hx | hx
    · exact absurd hx hnot
    · rw [List.mem_singleton.1 hx]
      exact List.mem_cons_self

/-- What holds of the coroutine before it looks at the visited set, holds where it finds the vertex
visited. -/
theorem skip {u w : ℕ} {stack : List (ℕ × ℕ)}
    (h : Covers graph starts order (⟨u, stack, .inspected w⟩ :: rest)) (hw : w ∈ order) :
    Covers graph starts order (⟨u, stack, .loopHead⟩ :: rest) := by
  refine h.replace (List.Subset.refl order) ?_ ?_ ?_ ?_
  · exact h.stack ⟨u, stack, .inspected w⟩ List.mem_cons_self
  · intro x hx
    simp at hx
  · rintro x - j y - (hk | hy)
    · exact Or.inr (Or.inl hk)
    · rw [← Suspension.inspected.inj hy]
      exact Or.inl hw
  · exact fun x hx hnot => absurd hx hnot

end Covers

/-! ### The turns -/

/-- A turn of a coroutine that has begun, once all coroutines have begun. -/
theorem covers_of_turn (hp : Progress graph starts [] s)
    (h : Covers graph starts s.traversalOrder (t :: rest)) (hturn : Turn graph t s t' s')
    (hbegun : t.suspendedAt ≠ .initial) :
    Progress graph starts [] s' ∧ Covers graph starts s'.traversalOrder (t' :: rest) ∧
      t'.suspendedAt ≠ .initial ∧ (t'.suspendedAt = .final → t'.stack = []) := by
  induction hturn with
  | start => exact absurd rfl hbegun
  | finish v s =>
      refine ⟨hp, ?_, by simp, fun _ => rfl⟩
      refine h.replace (List.Subset.refl _) ?_ ?_ ?_ ?_
      · simp
      · simp
      · rintro x - j w - (⟨k, -, hk⟩ | hw)
        · simp at hk
        · simp at hw
      · exact fun x hx hnot => absurd hx hnot
  | leave v vertex nextEdgeIndex below s text hlast =>
      refine ⟨hp.print text, ?_, by simp, by simp⟩
      refine h.replace (List.Subset.refl _) ?_ ?_ ?_ ?_
      · exact fun entry hentry =>
          h.stack _ List.mem_cons_self entry (List.mem_cons_of_mem _ hentry)
      · simp
      · rintro x - j w hw (⟨k, hk, hmem⟩ | hw')
        · -- the entry that is popped has no edge left
          rcases List.mem_cons.1 hmem with heq | hmem
          · obtain ⟨rfl, rfl⟩ := Prod.mk.inj heq
            have hlt := (List.getElem?_eq_some_iff.1 hw).1
            omega
          · exact Or.inr (Or.inl ⟨k, hk, hmem⟩)
        · simp at hw'
      · exact fun x hx hnot => absurd hx hnot
  | inspect v vertex nextEdgeIndex toVertex below s text hto hlt =>
      refine ⟨hp.print text, ?_, by simp, by simp⟩
      have hvertex : vertex ∈ s.traversalOrder := h.stack _ List.mem_cons_self _ List.mem_cons_self
      refine h.replace (List.Subset.refl _) ?_ ?_ ?_ ?_
      · intro entry hentry
        rcases List.mem_cons.1 hentry with rfl | hentry
        · exact hvertex
        · exact h.stack _ List.mem_cons_self entry (List.mem_cons_of_mem _ hentry)
      · intro w hw
        rw [← Suspension.inspected.inj hw]
        obtain ⟨u, hu, hreach⟩ := hp.reached vertex (List.mem_append_left _ hvertex)
        exact ⟨hlt, u, hu, hreach.tail (List.mem_of_getElem? hto)⟩
      · rintro x - j w hw (⟨k, hk, hmem⟩ | hw')
        · rcases List.mem_cons.1 hmem with heq | hmem
          · -- the edge that is inspected now is pending by the place, the later ones by the stack
            obtain ⟨rfl, rfl⟩ := Prod.mk.inj heq
            rcases Nat.eq_or_lt_of_le hk with rfl | hlt'
            · rw [hto, Option.some.injEq, Int.natCast_inj] at hw
              exact Or.inr (Or.inr (congrArg Suspension.inspected hw))
            · exact Or.inr (Or.inl ⟨k + 1, hlt', List.mem_cons_self⟩)
          · exact Or.inr (Or.inl ⟨k, hk, List.mem_cons_of_mem _ hmem⟩)
        · simp at hw'
      · exact fun x hx hnot => absurd hx hnot
  | enter v toVertex stack s hnew =>
      obtain ⟨hlt, hreach⟩ := h.inspected _ List.mem_cons_self toVertex rfl
      refine ⟨(hp.push hnew hlt hreach).enter, ?_, by simp, by simp⟩
      rw [Shared.traversalOrder_enter]
      exact h.enter fun w hw => (Suspension.inspected.inj hw).symm
  | skip v toVertex stack s s' t' hvisited _ ih =>
      exact ih hp (h.skip ((hp.isVisited toVertex).1 hvisited)) (by simp)

/-- The invariant of the scheduler: the coroutines of `fresh` have not begun and come first in the
queue, the ones of `live` have begun and have not finished. -/
structure SoundAt (graph : Graph) (starts fresh : List ℕ) (live : List Task) (q : Scheduler) :
    Prop where
  queue : q.readyQueue = fresh.map dfsCoroutine ++ live
  live : ∀ t ∈ live, t.suspendedAt ≠ .initial ∧ t.suspendedAt ≠ .final
  progress : Progress graph starts fresh q.shared
  covers : Covers graph starts q.shared.traversalOrder q.readyQueue

/-- The invariant of the scheduler. -/
def Sound (graph : Graph) (starts : List ℕ) (q : Scheduler) : Prop :=
  ∃ fresh live, SoundAt graph starts fresh live q

/-- The coroutine `t` has taken its turn, and is scheduled again, or is destroyed. -/
theorem SoundAt.of_turn {live : List Task} {q : Scheduler}
    (hq : q = if t'.suspendedAt = .final then ⟨fresh.map dfsCoroutine ++ live, s'⟩
      else Scheduler.spawn ⟨fresh.map dfsCoroutine ++ live, s'⟩ t')
    (hlive : ∀ t ∈ live, t.suspendedAt ≠ .initial ∧ t.suspendedAt ≠ .final)
    (hp : Progress graph starts fresh s')
    (hc : Covers graph starts s'.traversalOrder (t' :: (fresh.map dfsCoroutine ++ live)))
    (hbegun : t'.suspendedAt ≠ .initial) (hfinal : t'.suspendedAt = .final → t'.stack = []) :
    Sound graph starts q := by
  by_cases hlast : t'.suspendedAt = .final
  · rw [if_pos hlast] at hq
    subst hq
    exact ⟨fresh, live, rfl, hlive, hp, hc.destroy (hfinal hlast) hlast⟩
  · rw [if_neg hlast] at hq
    subst hq
    refine ⟨fresh, live ++ [t'], ?_, ?_, hp, hc.congr ?_⟩
    · simp [Scheduler.spawn]
    · intro t₀ ht₀
      rcases List.mem_append.1 ht₀ with ht₀ | ht₀
      · exact hlive t₀ ht₀
      · rw [List.mem_singleton.1 ht₀]
        exact ⟨hbegun, hlast⟩
    · intro t₀
      simp only [Scheduler.spawn, List.mem_cons, List.mem_append]
      tauto

/-- The result of an iteration of `Run`. -/
theorem turn_eq_ok {q : Scheduler} (h : Scheduler.turn graph t rest s = .ok q) :
    ∃ t' s', t.resume graph s = .ok (t', s') ∧
      q = if t'.suspendedAt = .final then ⟨rest, s'⟩ else Scheduler.spawn ⟨rest, s'⟩ t' := by
  rw [Scheduler.turn] at h
  split at h
  · simp at h
  · next t' s' hresume =>
      refine ⟨t', s', hresume, ?_⟩
      split_ifs at h ⊢
      · exact (Except.ok.inj h).symm
      · exact (Except.ok.inj h).symm

/-- **Every turn keeps the invariant.** -/
theorem Sound.turn {q : Scheduler} (h : Sound graph starts ⟨t :: rest, s⟩)
    (hturn : Scheduler.turn graph t rest s = .ok q) : Sound graph starts q := by
  obtain ⟨fresh, live, hqueue, hlive, hp, hc⟩ := h
  obtain ⟨t', s', hresume, hq⟩ := turn_eq_ok hturn
  cases fresh with
  | cons v fresh =>
      -- a coroutine begins
      obtain ⟨rfl, rfl⟩ := List.cons.inj hqueue
      obtain ⟨rfl, rfl⟩ := Prod.mk.inj (Except.ok.inj hresume)
      refine SoundAt.of_turn hq hlive hp.enter ?_ (by simp) (by simp)
      rw [Shared.traversalOrder_enter]
      exact hc.enter fun w hw => by simp at hw
  | nil =>
      rw [List.map_nil, List.nil_append] at hqueue
      subst hqueue
      obtain ⟨hbegun, hnot⟩ := hlive t List.mem_cons_self
      obtain ⟨hp', hc', hbegun', hfinal⟩ :=
        covers_of_turn hp hc (turn_of_resume hnot hresume) hbegun
      exact SoundAt.of_turn hq
        (fun t₀ ht₀ => hlive t₀ (List.mem_cons_of_mem t ht₀)) hp' hc' hbegun' hfinal

/-- The invariant holds where the scheduler has stopped. -/
theorem Sound.of_returns {q : Scheduler} (h : Sound graph starts q)
    (hr : q.Returns graph (.ok s)) : Sound graph starts ⟨[], s⟩ := by
  obtain ⟨fuel, hr⟩ := hr
  induction fuel generalizing q with
  | zero => simp [Scheduler.run] at hr
  | succ fuel ih =>
      obtain ⟨queue, s₀⟩ := q
      rw [Scheduler.run] at hr
      cases queue with
      | nil =>
          rw [← Except.ok.inj (Option.some.inj hr)]
          exact h
      | cons t rest =>
          simp only at hr
          split at hr
          · simp at hr
          · next q' hturn => exact ih (h.turn hturn) hr

/-! ### The scheduler stops -/

/-- The turns that an entry of a stack stands for. -/
def Graph.entryWork (graph : Graph) (entry : ℕ × ℕ) : ℕ :=
  2 * ((graph.edges entry.1).length - entry.2) + 1

/-- A coroutine that has inspected an edge is one turn ahead. -/
def Suspension.work : Suspension → ℕ
  | .inspected _ => 1
  | _ => 0

/-- The turns that a coroutine takes, unless it enters a vertex. -/
def Task.work (graph : Graph) (t : Task) : ℕ :=
  (t.stack.map graph.entryWork).sum + t.suspendedAt.work + 1

/-- The vertices that are left, and the turns that are left until the next one is entered. -/
def Scheduler.work (graph : Graph) (q : Scheduler) : ℕ ×ₗ ℕ :=
  toLex (graph.adj.length - q.shared.traversalOrder.length,
    (q.readyQueue.map (Task.work graph)).sum)

/-- A turn enters a vertex, or uses up some work, or is the last one of its coroutine. -/
theorem work_of_turn (hturn : Turn graph t s t' s') :
    s'.traversalOrder.length = s.traversalOrder.length + 1 ∨
      s'.traversalOrder = s.traversalOrder ∧
        (t'.work graph < t.work graph ∨ t'.suspendedAt = .final) := by
  induction hturn with
  | start v stack s => exact Or.inl (by simp)
  | finish v s => exact Or.inr ⟨rfl, Or.inr rfl⟩
  | leave v vertex nextEdgeIndex below s text hlast =>
      refine Or.inr ⟨rfl, Or.inl ?_⟩
      simp only [Task.work, Graph.entryWork, List.map_cons, List.sum_cons]
      omega
  | inspect v vertex nextEdgeIndex toVertex below s text hto hlt =>
      have hindex := (List.getElem?_eq_some_iff.1 hto).1
      refine Or.inr ⟨rfl, Or.inl ?_⟩
      simp only [Task.work, Graph.entryWork, Suspension.work, List.map_cons, List.sum_cons]
      omega
  | enter v toVertex stack s hnew => exact Or.inl (by simp)
  | skip v toVertex stack s s' t' hvisited _ ih =>
      rcases ih with hlen | ⟨horder, hwork | hfinal⟩
      · exact Or.inl hlen
      · refine Or.inr ⟨horder, Or.inl ?_⟩
        simp only [Task.work, Suspension.work] at hwork ⊢
        omega
      · exact Or.inr ⟨horder, Or.inr hfinal⟩

/-- Every turn decreases the work that is left. -/
theorem Sound.work_lt {q : Scheduler} (h : Sound graph starts ⟨t :: rest, s⟩)
    (hturn : Scheduler.turn graph t rest s = .ok q) :
    q.work graph < Scheduler.work graph ⟨t :: rest, s⟩ := by
  obtain ⟨fresh', live', -, -, hp', -⟩ := h.turn hturn
  have hlen := hp'.length_le
  obtain ⟨t', s', hresume, hq⟩ := turn_eq_ok hturn
  have hlive : t.suspendedAt ≠ .final := by
    obtain ⟨fresh, live, hqueue, hlive, -, -⟩ := h
    have hmem : t ∈ fresh.map dfsCoroutine ++ live := hqueue ▸ List.mem_cons_self
    rcases List.mem_append.1 hmem with hmem | hmem
    · obtain ⟨v, -, rfl⟩ := List.mem_map.1 hmem
      simp [dfsCoroutine]
    · exact (hlive t hmem).2
  have hshared : q.shared = s' := by
    rw [hq]
    split_ifs <;> rfl
  rw [hshared] at hlen
  rw [Scheduler.work, Scheduler.work, Prod.Lex.toLex_lt_toLex, hshared]
  rcases work_of_turn (turn_of_resume hlive hresume) with hgrow | ⟨hsame, hwork⟩
  · -- a vertex has been entered
    exact Or.inl (by simp only; omega)
  · -- the coroutine has used up some of its work, or has left the queue
    refine Or.inr ⟨by rw [hsame], ?_⟩
    have hpos : 0 < t.work graph := Nat.succ_pos _
    rw [hq]
    simp only [List.map_cons, List.sum_cons]
    split_ifs with hfinal
    · simp only
      omega
    · have hless := hwork.resolve_right hfinal
      simp only [Scheduler.spawn, List.map_append, List.sum_append, List.map_cons, List.map_nil,
        List.sum_cons, List.sum_nil]
      omega

/-- **The scheduler stops.** -/
theorem Sound.exists_returns {q : Scheduler} (h : Sound graph starts q) :
    ∃ r, q.Returns graph r := by
  induction hwork : q.work graph using WellFoundedLT.induction generalizing q with
  | ind w ih =>
      obtain ⟨queue, s⟩ := q
      cases queue with
      | nil => exact ⟨.ok s, 1, rfl⟩
      | cons t rest =>
          cases hturn : Scheduler.turn graph t rest s with
          | error e => exact ⟨.error e, 1, by simp [Scheduler.run, hturn]⟩
          | ok q' =>
              have hlt := h.work_lt hturn
              rw [hwork] at hlt
              obtain ⟨r, fuel, hr⟩ := ih _ hlt (h.turn hturn) rfl
              refine ⟨r, fuel + 1, ?_⟩
              simp only [Scheduler.run, hturn]
              exact hr

/-- The scheduler does not throw where the source counts the vertices right. -/
theorem not_returns_error (hvalid : graph.Valid) (hsize : graph.size = graph.adj.length)
    {q : Scheduler} {e : String} : ¬ q.Returns graph (.error e) := by
  rintro ⟨fuel, hr⟩
  induction fuel generalizing q with
  | zero => simp [Scheduler.run] at hr
  | succ fuel ih =>
      obtain ⟨queue, s⟩ := q
      rw [Scheduler.run] at hr
      cases queue with
      | nil => simp at hr
      | cons t rest =>
          simp only at hr
          split at hr
          · next e' hturn =>
              rw [Scheduler.turn] at hturn
              split at hturn
              · next e'' hresume =>
                  obtain ⟨-, vertex, w, hw, hbad⟩ := exists_of_resume_error hresume
                  have hgood := hvalid.edge hw
                  omega
              · split_ifs at hturn
          · exact ih hr

/-! ### What has been visited -/

/-- Where the scheduler has stopped, exactly the vertices that are reachable have been visited. -/
theorem Sound.mem_iff (h : Sound graph starts ⟨[], s⟩) :
    v ∈ s.traversalOrder ↔ ∃ u ∈ starts, graph.Reaches u v := by
  obtain ⟨fresh, live, hqueue, -, hp, hc⟩ := h
  obtain ⟨hfresh, -⟩ := List.append_eq_nil_iff.1 hqueue.symm
  rw [List.map_eq_nil_iff] at hfresh
  subst hfresh
  constructor
  · exact fun hv => hp.reached v (List.mem_append_left _ hv)
  · rintro ⟨u, hu, hreach⟩
    -- no edge is pending any more, so that the visited vertices are closed under edges
    induction hreach with
    | refl => simpa using hp.startsFirst.subset hu
    | tail _ hedge ih =>
        obtain ⟨j, hj⟩ := List.getElem?_of_mem hedge
        rcases hc.pending _ ih j _ hj with hin | ⟨t, ht, -⟩
        · exact hin
        · exact absurd ht List.not_mem_nil

/-- The coroutines of the start vertices are spawned one after the other. -/
def spawnAll (q : Scheduler) (starts : List ℕ) : Scheduler :=
  starts.foldl (fun q v => q.spawn (dfsCoroutine v)) q

theorem spawnAll_eq (q : Scheduler) (starts : List ℕ) :
    spawnAll q starts = { q with readyQueue := q.readyQueue ++ starts.map dfsCoroutine } := by
  induction starts generalizing q with
  | nil => simp [spawnAll]
  | cons v starts ih =>
      refine (ih (q.spawn (dfsCoroutine v))).trans ?_
      simp [Scheduler.spawn]

/-- The invariant holds before `Run`. -/
theorem sound_spawnAll (hnodup : starts.Nodup) (hlt : ∀ v ∈ starts, (v : ℤ) < graph.size)
    (log : Option String) : Sound graph starts (spawnAll (.empty graph log) starts) := by
  rw [spawnAll_eq]
  refine ⟨starts, [], ?_, by simp, ?_, ?_⟩
  · simp [Scheduler.empty]
  · refine ⟨by simp [Scheduler.empty], ?_, by simpa [Scheduler.empty] using hnodup, ?_, ?_, ?_⟩
    · intro v
      simp only [isVisited_empty]
      simp [Scheduler.empty]
    · simpa [Scheduler.empty] using hlt
    · simp [Scheduler.empty]
    · intro v hv
      exact ⟨v, by simpa [Scheduler.empty] using hv, Relation.ReflTransGen.refl⟩
  · refine ⟨?_, ?_, by simp [Scheduler.empty]⟩
    · intro t ht
      obtain ⟨v, -, rfl⟩ : ∃ v ∈ starts, dfsCoroutine v = t := by simpa [Scheduler.empty] using ht
      simp [dfsCoroutine]
    · intro t ht
      obtain ⟨v, -, rfl⟩ : ∃ v ∈ starts, dfsCoroutine v = t := by simpa [Scheduler.empty] using ht
      simp [dfsCoroutine]

/-- On a graph whose vertices are counted right, the scheduler stops without an exception. -/
theorem Sound.exists_ok {q : Scheduler} (h : Sound graph starts q) (hvalid : graph.Valid)
    (hsize : graph.size = graph.adj.length) :
    ∃ s, q.Returns graph (.ok s) ∧ Sound graph starts ⟨[], s⟩ := by
  obtain ⟨r, hr⟩ := h.exists_returns
  cases r with
  | error e => exact absurd hr (not_returns_error hvalid hsize)
  | ok s => exact ⟨s, hr, h.of_returns hr⟩

/-- `CooperativeDFS` spawns a coroutine for every value of its loop variable. -/
theorem spawnLoop_empty (graph : Graph) (log : Option String) (vertices : List ℕ) :
    spawnLoop (.empty graph log) vertices = spawnAll (.empty graph log) vertices := by
  rw [spawnLoop_eq (isVisited_empty graph log), spawnAll_eq]

theorem sound_spawnLoop (graph : Graph) (log : Option String) :
    Sound graph graph.loopRange (spawnLoop (.empty graph log) graph.loopRange) := by
  rw [spawnLoop_empty]
  refine sound_spawnAll List.nodup_range ?_ log
  intro v hv
  have hlt := List.mem_range.1 hv
  omega

/-- **The order of `CooperativeDFS` is the ascending one.**  The start vertices, which are all
vertices, are entered before any edge is inspected. -/
theorem exists_cooperativeDFS_eq_range (hsize : graph.adj.length < 2 ^ 31) (hvalid : graph.Valid)
    (log : Option String) :
    ∃ fuel, cooperativeDFS graph log fuel = some (.ok (List.range graph.adj.length)) := by
  have hcount : graph.size = graph.adj.length := staticCastInt_of_lt hsize
  obtain ⟨s, ⟨fuel, hr⟩, hs⟩ := (sound_spawnLoop graph log).exists_ok hvalid hcount
  obtain ⟨fresh, live, hqueue, -, hp, -⟩ := hs
  obtain ⟨hfresh, -⟩ := List.append_eq_nil_iff.1 hqueue.symm
  rw [List.map_eq_nil_iff] at hfresh
  subst hfresh
  have hlen := hp.length_le
  have hfirst := hp.startsFirst
  rw [Graph.loopRange, hcount, Int.toNat_natCast, List.append_nil] at hfirst
  have horder : List.range graph.adj.length = s.traversalOrder :=
    hfirst.eq_of_length_le (by simpa using hlen)
  refine ⟨fuel, ?_⟩
  simp only [cooperativeDFS, hr, Option.map_some, Except.map]
  rw [horder]

/-- What has been visited when `Run` returns: the vertices that are reachable from the start
vertices, each once. -/
structure VisitsReachable (graph : Graph) (starts : List ℕ) (s : Shared) : Prop where
  nodup : s.traversalOrder.Nodup
  reachable : ∀ v, v ∈ s.traversalOrder ↔ ∃ u ∈ starts, graph.Reaches u v
  visited : ∀ v, v ∈ s.traversalOrder ↔ s.isVisited v = true

/-- **The coroutines visit exactly the reachable vertices, each once**, and `CooperativeDFS` returns
a permutation of the vertices. -/
theorem coroutines_visit_reachable (graph : Graph) (hsize : graph.adj.length < 2 ^ 31)
    (hvalid : graph.Valid) :
    (∀ (starts : List ℕ) (log : Option String), starts.Nodup →
      (∀ v ∈ starts, v < graph.adj.length) →
      ∃ s, (spawnAll (.empty graph log) starts).Returns graph (.ok s) ∧
        VisitsReachable graph starts s) ∧
    ∀ log, ∃ fuel order, cooperativeDFS graph log fuel = some (.ok order) ∧
      order.Perm (List.range graph.adj.length) := by
  have hcount : graph.size = graph.adj.length := staticCastInt_of_lt hsize
  refine ⟨?_, ?_⟩
  · intro starts log hnodup hstarts
    have hlt : ∀ v ∈ starts, (v : ℤ) < graph.size := by
      intro v hv
      have := hstarts v hv
      omega
    obtain ⟨s, hr, hs⟩ := (sound_spawnAll hnodup hlt log).exists_ok hvalid hcount
    have hmem := fun v => hs.mem_iff (v := v)
    obtain ⟨fresh, live, -, -, hp, -⟩ := hs
    exact ⟨s, hr, hp.nodup.of_append_left, hmem, fun v => (hp.isVisited v).symm⟩
  · intro log
    obtain ⟨fuel, hr⟩ := exists_cooperativeDFS_eq_range hsize hvalid log
    exact ⟨fuel, _, hr, List.Perm.refl _⟩

/-- A triangle whose last edge is missing: two coroutines meet at the same vertices. -/
theorem coroutines_visit_reachable_three_vertices :
    let graph : Graph := ⟨[[1, 2], [2], [1]]⟩
    (∃ s, (spawnAll (.empty graph none) [2, 0]).Returns graph (.ok s) ∧
      VisitsReachable graph [2, 0] s) ∧
    ∃ fuel order, cooperativeDFS graph none fuel = some (.ok order) ∧
      order.Perm (List.range 3) := by
  have h := coroutines_visit_reachable ⟨[[1, 2], [2], [1]]⟩ (by decide) (by decide)
  exact ⟨h.1 [2, 0] none (by decide) (by decide), h.2 none⟩

/-- **A graph with `2 ^ 31` vertices is not visited at all**: their number is negative as an `int`. -/
theorem too_many_vertices :
    let graph : Graph := ⟨List.replicate (2 ^ 31) []⟩
    graph.Valid ∧ cooperativeDFS graph none 1 = some (.ok []) ∧
      ¬ [].Perm (List.range graph.adj.length) := by
  intro graph
  have hlen : graph.adj.length = 2 ^ 31 := List.length_replicate
  have hrange : graph.loopRange = [] := by
    have hcast : (staticCastInt (2 ^ 31)).toNat = 0 := by decide
    rw [Graph.loopRange, Graph.size, hlen, hcast]
    rfl
  refine ⟨?_, ?_, ?_⟩
  · intro row hrow w hw
    rw [List.eq_of_mem_replicate hrow] at hw
    exact absurd hw List.not_mem_nil
  · rw [cooperativeDFS, hrange]
    rfl
  · intro hperm
    have hlen' := hperm.length_eq
    rw [List.length_range, hlen, List.length_nil] at hlen'
    exact absurd hlen' (by decide)

end CooperativeDfs
