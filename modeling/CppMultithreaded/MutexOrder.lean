/-
**The memory orders of the futex mutex.**

`Lock` and `Unlock` pass memory orders to their operations on `mtx_state`, and what a thread does between
the two are accesses to plain memory.  The operations on `mtx_state` and the accesses form a log, and two
conflicting accesses of different threads have to be ordered by happens-before in it.  All operations are
on one atomic object, so that their order in the log is the order in which they take effect; a call of
`FutexWait` compares the word in the kernel, which orders nothing.

The orders are a parameter of the automaton.  With those of the source there is no data race, and three
of the four are needed for that: the failing compare-and-exchange may have any order.

Main definitions:

* `FutexMutex.Orders`, `FutexMutex.sourceOrders` — the memory orders, and those of the source;
* `FutexMutex.OrderedState`, `FutexMutex.orderedSystem` — the mutex with its log;
* `FutexMutex.Ordered` — the holder knows all accesses, or the free word carries them.

Main results:

* `FutexMutex.Ordered.step` — every step keeps the invariant;
* `FutexMutex.no_data_race` — **critical sections do not race**, exactly if the orders acquire and
  release.
-/

import CppMultithreaded.HappensBefore
import CppMultithreaded.Mutex

set_option relaxedAutoImplicit false
set_option autoImplicit false

namespace FutexMutex

open HappensBefore

/-! ### The log of the mutex -/

/-- The memory orders of the operations on `mtx_state`. -/
structure Orders where
  compareExchange : MemoryOrder
  /-- That of the compare-and-exchange when it fails. -/
  compareExchangeFailure : MemoryOrder
  /-- That of the exchanges by `2`. -/
  exchange : MemoryOrder
  /-- That of the exchange by `0`. -/
  unlock : MemoryOrder
  deriving DecidableEq, Repr

/-- The memory orders of the source. -/
def sourceOrders : Orders :=
  { compareExchange := .acquire
    compareExchangeFailure := .relaxed
    exchange := .acquire
    unlock := .release }

/-- An access to plain memory. -/
structure Access (L : Type*) where
  location : L
  isWrite : Bool

/-- The accesses are to one location, and one of them is a write. -/
def Access.Conflicts {L : Type*} (c d : Access L) : Prop :=
  c.location = d.location ∧ (c.isWrite = true ∨ d.isWrite = true)

/-- The events: the operations on `mtx_state`, and the accesses to plain memory. -/
abbrev MutexEvent (T L : Type*) := Event T (Access L) Unit

/-- The mutex, and the log of the run. -/
structure OrderedState (T L : Type*) extends State T where
  log : List (MutexEvent T L)

/-- The steps of the mutex, and the accesses in the critical sections. -/
inductive OrderedAction (T L : Type*)
  | mutex (a : Action T)
  | access (t : T) (c : Access L)

variable {T L : Type*} [DecidableEq T]

omit [DecidableEq T] in
/-- The operation on `mtx_state` that a step performs. -/
def Orders.event? (orders : Orders) (s : State T) : Action T → Option (MutexEvent T L)
  | .compareExchange t =>
      if s.mtxState = 0 then some ⟨t, .readModifyWrite () orders.compareExchange⟩
      else some ⟨t, .load () orders.compareExchangeFailure⟩
  | .exchange t => some ⟨t, .readModifyWrite () orders.exchange⟩
  | .unlock t => some ⟨t, .readModifyWrite () orders.unlock⟩
  | .lock _ | .futexWait _ | .spuriousWakeup _ | .futexWakeOne _ _ => none

variable [Fintype T]

/-- The step function. -/
def orderedStep (orders : Orders) (s : OrderedState T L) :
    OrderedAction T L → Option (OrderedState T L)
  | .mutex a =>
      (step s.toState a).map fun s' =>
        { s' with log := s.log ++ (orders.event? s.toState a).toList }
  | .access t c =>
      if s.pc t = .critical then some { s with log := s.log ++ [⟨t, .access c⟩] } else none

omit [DecidableEq T] [Fintype T] in
/-- The free mutex, before the first event. -/
def OrderedState.initial : OrderedState T L := { FutexMutex.initial with log := [] }

/-- The automaton of the mutex with the memory orders `orders`, for the threads `T` and the plain
locations `L`. -/
def orderedSystem (T L : Type*) [DecidableEq T] [Fintype T] (orders : Orders) :
    Automaton (OrderedState T L) (OrderedAction T L) where
  init s := s = OrderedState.initial
  step := orderedStep orders

/-- Without the log it is the mutex. -/
def orderedSimulation (orders : Orders) :
    Automaton.Simulation (orderedSystem T L orders) (system T) where
  abs s := s.toState
  init s h := by
    rw [show s = OrderedState.initial from h]
    rfl
  step s a s' _ h := by
    cases a with
    | mutex a =>
        obtain ⟨p, hp, rfl⟩ := Option.map_eq_some_iff.1 h
        exact Automaton.Steps.single (a := a) hp
    | access t c =>
        obtain ⟨-, hs⟩ := Option.ite_none_right_eq_some.1 h
        obtain rfl := Option.some.inj hs
        exact Automaton.Steps.refl

/-! ### The invariant -/

/-- **The accesses are ordered**: the holder knows all of them, and a free word carries all of them. -/
structure Ordered (s : OrderedState T L) : Prop where
  raceFree : RaceFree Access.Conflicts s.log
  holder : ∀ t, s.pc t = .critical → ∀ i u c, s.log[i]? = some ⟨u, .access c⟩ → Knows s.log t i
  free : s.mtxState = 0 → ∀ i u c, s.log[i]? = some ⟨u, .access c⟩ → Carried s.log () i

/-- An operation on `mtx_state` is no access, and no plain store. -/
def IsOperation (e : MutexEvent T L) : Prop := (∀ c, e.op ≠ .access c) ∧ ¬e.op.Stores ()

omit [DecidableEq T] [Fintype T] in
theorem isOperation_of_event? {orders : Orders} {s : State T} {a : Action T} {e : MutexEvent T L}
    (he : e ∈ orders.event? s a) : IsOperation e := by
  cases a with
  | compareExchange t =>
      simp only [Orders.event?] at he
      split_ifs at he with h0
      · obtain rfl := Option.some.inj he
        exact ⟨by simp, id⟩
      · obtain rfl := Option.some.inj he
        exact ⟨by simp, id⟩
  | exchange t =>
      obtain rfl := Option.some.inj he
      exact ⟨by simp, id⟩
  | unlock t =>
      obtain rfl := Option.some.inj he
      exact ⟨by simp, id⟩
  | _ => simp [Orders.event?] at he

omit [DecidableEq T] [Fintype T] in
theorem IsOperation.access_mem {log : List (MutexEvent T L)} {e : MutexEvent T L}
    (he : IsOperation e) {i : ℕ} {u : T} {c : Access L}
    (h : (log ++ [e])[i]? = some ⟨u, .access c⟩) : log[i]? = some ⟨u, .access c⟩ := by
  rcases getElem?_concat.1 h with h | ⟨-, rfl⟩
  · exact h
  · exact absurd rfl (he.1 c)

omit [DecidableEq T] [Fintype T] in
/-- A step that takes nothing and frees nothing. -/
theorem Ordered.keep {s : OrderedState T L} (h : Ordered s) {p : State T} {e : Option (MutexEvent T L)}
    (he : ∀ x ∈ e, IsOperation x) (hpc : ∀ t, p.pc t = .critical → s.pc t = .critical)
    (hm : p.mtxState = 0 → s.mtxState = 0) :
    Ordered { p with log := s.log ++ e.toList } := by
  cases e with
  | none =>
      rw [Option.toList_none, List.append_nil]
      exact ⟨h.raceFree, fun t ht => h.holder t (hpc t ht), fun h0 => h.free (hm h0)⟩
  | some e =>
      have hop := he e rfl
      rw [Option.toList_some]
      constructor
      · exact (raceFree_concat hop.1).2 h.raceFree
      · intro t ht i u c hi
        exact (h.holder t (hpc t ht) i u c (hop.access_mem hi)).concat
      · intro h0 i u c hi
        exact (h.free (hm h0) i u c (hop.access_mem hi)).concat hop.2

omit [DecidableEq T] [Fintype T] in
/-- Taking the free mutex by an operation that acquires. -/
theorem Ordered.acquire {s : OrderedState T L} (h : Ordered s) {p : State T} {e : MutexEvent T L}
    (he : IsOperation e) (hacquires : e.op.Acquires ()) (h0 : s.mtxState = 0)
    (hpc : ∀ t, p.pc t = .critical → t = e.thread) (hm : p.mtxState ≠ 0) :
    Ordered { p with log := s.log ++ [e] } := by
  constructor
  · exact (raceFree_concat he.1).2 h.raceFree
  · intro t ht i u c hi
    rw [hpc t ht]
    exact (h.free h0 i u c (he.access_mem hi)).knows hacquires
  · intro h0'
    exact absurd h0' hm

omit [DecidableEq T] [Fintype T] in
/-- Leaving the critical section by an operation that releases. -/
theorem Ordered.release {s : OrderedState T L} (h : Ordered s) {p : State T} {e : MutexEvent T L}
    (he : IsOperation e) (hreleases : e.op.Releases ()) (ht : s.pc e.thread = .critical)
    (hpc : ∀ t, p.pc t ≠ .critical) :
    Ordered { p with log := s.log ++ [e] } := by
  constructor
  · exact (raceFree_concat he.1).2 h.raceFree
  · intro t ht'
    exact absurd ht' (hpc t)
  · intro _ i u c hi
    exact (h.holder e.thread ht i u c (he.access_mem hi)).carried hreleases

omit [DecidableEq T] [Fintype T] in
/-- An access of the holder. -/
theorem Ordered.access {s : OrderedState T L} (h : Ordered s) (hx : Exclusive s.toState) {t : T}
    (ht : s.pc t = .critical) (c : Access L) :
    Ordered { s with log := s.log ++ [⟨t, .access c⟩] } := by
  constructor
  · refine raceFree_concat_access.2 ⟨h.raceFree, ?_⟩
    intro i u d hi _ _
    exact h.holder t ht i u d hi
  · intro u hu i v d hi
    have hut : u = t := hx.unique u t hu ht
    subst hut
    rcases getElem?_concat.1 hi with hi | ⟨rfl, -⟩
    · exact (h.holder u ht i v d hi).concat
    · exact knows_self
  · intro h0
    exact absurd h0 (hx.held.2 ⟨t, ht⟩)

/-- The orders with which the mutex orders what it protects. -/
structure Orders.Sound (orders : Orders) : Prop where
  compareExchange : orders.compareExchange.acquires = true
  exchange : orders.exchange.acquires = true
  unlock : orders.unlock.releases = true

theorem sound_sourceOrders : sourceOrders.Sound := ⟨rfl, rfl, rfl⟩

/-- Every step keeps the invariant. -/
theorem Ordered.step {orders : Orders} (ho : orders.Sound) {s s' : OrderedState T L}
    {a : OrderedAction T L} (h : Ordered s) (hx : Exclusive s.toState)
    (hs : orderedStep orders s a = some s') : Ordered s' := by
  have hcritical : ∀ {u v : T} {q : Pc}, q ≠ .critical →
      Function.update s.pc u q v = .critical → s.pc v = .critical := by
    intro u v q hq hv
    by_cases hvu : v = u
    · subst hvu
      rw [Function.update_self] at hv
      exact absurd hv hq
    · rwa [Function.update_of_ne hvu] at hv
  -- the holder of a mutex that was free is the one who has just taken it
  have htaken : ∀ {u v : T}, s.mtxState = 0 →
      Function.update s.pc u .critical v = .critical → v = u := by
    intro u v h0 hv
    by_contra hvu
    rw [Function.update_of_ne hvu] at hv
    exact hx.held.2 ⟨v, hv⟩ h0
  cases a with
  | access t c =>
      obtain ⟨ht, hs⟩ := Option.ite_none_right_eq_some.1 hs
      obtain rfl := Option.some.inj hs
      exact h.access hx ht c
  | mutex a =>
      obtain ⟨p, hp, rfl⟩ := Option.map_eq_some_iff.1 hs
      have hop : ∀ x ∈ orders.event? (L := L) s.toState a, IsOperation x :=
        fun x => isOperation_of_event?
      cases a with
      | lock t =>
          simp only [FutexMutex.step, Option.ite_none_right_eq_some, Option.some.injEq] at hp
          obtain ⟨-, rfl⟩ := hp
          exact h.keep hop (fun v => hcritical (by decide)) id
      | compareExchange t =>
          simp only [FutexMutex.step, Option.ite_none_right_eq_some, Option.some.injEq] at hp
          obtain ⟨-, rfl⟩ := hp
          simp only [Orders.event?] at hop ⊢
          unfold lockCompareExchange
          split_ifs at hop ⊢ with h0 h2
          · exact h.acquire (hop _ rfl) ⟨rfl, ho.compareExchange⟩ h0 (fun v => htaken h0) (by simp)
          · exact h.keep hop (fun v => hcritical (by decide)) id
          · exact h.keep hop (fun v => hcritical (by decide)) id
      | exchange t =>
          simp only [FutexMutex.step, Option.ite_none_right_eq_some, Option.some.injEq] at hp
          obtain ⟨-, rfl⟩ := hp
          simp only [Orders.event?] at hop ⊢
          unfold lockExchange
          split_ifs with h0
          · exact h.keep hop (fun v => hcritical (by decide)) (by simp)
          · exact h.acquire (hop _ rfl) ⟨rfl, ho.exchange⟩ (not_not.1 h0)
              (fun v => htaken (not_not.1 h0)) (by simp)
      | futexWait t =>
          simp only [FutexMutex.step, Option.ite_none_right_eq_some, Option.some.injEq] at hp
          obtain ⟨-, rfl⟩ := hp
          unfold futexWait
          split_ifs with h2
          · exact h.keep hop (fun v => hcritical (by decide)) id
          · exact h.keep hop (fun v => hcritical (by decide)) id
      | spuriousWakeup t =>
          simp only [FutexMutex.step, Option.ite_none_right_eq_some, Option.some.injEq] at hp
          obtain ⟨-, rfl⟩ := hp
          exact h.keep hop (fun v => hcritical (by decide)) id
      | unlock t =>
          simp only [FutexMutex.step, Option.ite_none_right_eq_some, Option.some.injEq] at hp
          obtain ⟨ht, rfl⟩ := hp
          have hleft : ∀ v, (unlockExchange s.toState t).pc v ≠ .critical := by
            intro v hv
            have hx' : Exclusive (unlockExchange s.toState t) :=
              hx.step (a := .unlock t) (by simp [FutexMutex.step, ht])
            refine hx'.held.2 ⟨v, hv⟩ ?_
            unfold unlockExchange
            split_ifs <;> rfl
          exact h.release (hop _ rfl) ⟨rfl, ho.unlock⟩ ht hleft
      | futexWakeOne t w =>
          simp only [FutexMutex.step, Option.ite_none_right_eq_some] at hp
          obtain ⟨ht, hw⟩ := hp
          rcases futexWakeOne_eq_some hw with ⟨u, hu, rfl⟩ | ⟨-, rfl⟩
          · refine h.keep hop ?_ id
            intro v hv
            by_cases hvt : v = t
            · subst hvt
              simp at hv
            · simp only [State.goto_pc, Function.update_of_ne hvt] at hv
              exact hcritical (by decide) hv
          · exact h.keep hop (fun v => hcritical (by decide)) id

theorem ordered_of_reachable {orders : Orders} (ho : orders.Sound) {s : OrderedState T L}
    (h : (orderedSystem T L orders).Reachable s) : Ordered s := by
  refine h.invariant ?_ ?_
  · rintro s rfl
    exact ⟨raceFree_nil, by simp [OrderedState.initial, initial], by simp [OrderedState.initial]⟩
  · intro s a s' hr hI hs
    exact hI.step ho (exclusive_of_reachable ((orderedSimulation orders).reachable hr)) hs

/-! ### The orders are needed -/

/-- Thread `t` writes in its critical section, and `u` takes the mutex that `t` has left free. -/
def handover (t u : T) (c : Access L) : List (OrderedAction T L) :=
  [.mutex (.lock t), .mutex (.compareExchange t), .access t c, .mutex (.unlock t),
    .mutex (.lock u), .mutex (.compareExchange u), .access u c]

/-- Thread `u` finds the mutex taken and sets the word to `2` before `t` writes. -/
def contendedHandover (t u : T) (c : Access L) : List (OrderedAction T L) :=
  [.mutex (.lock t), .mutex (.compareExchange t), .mutex (.lock u), .mutex (.compareExchange u),
    .mutex (.exchange u), .access t c, .mutex (.unlock t), .mutex (.futexWait u),
    .mutex (.exchange u), .access u c]

theorem run_handover (orders : Orders) (t u : T) (c : Access L) :
    ∃ s, (orderedSystem T L orders).run OrderedState.initial (handover t u c) = some s ∧
      s.log = [] ++ [⟨t, .readModifyWrite () orders.compareExchange⟩] ++ [⟨t, .access c⟩] ++
        [⟨t, .readModifyWrite () orders.unlock⟩] ++
        [⟨u, .readModifyWrite () orders.compareExchange⟩] ++ [⟨u, .access c⟩] := by
  simp [handover, Automaton.run, orderedSystem, orderedStep, step, OrderedState.initial, initial,
    lockCompareExchange, unlockExchange, Orders.event?]

theorem run_contendedHandover (orders : Orders) {t u : T} (htu : t ≠ u) (c : Access L) :
    ∃ s, (orderedSystem T L orders).run OrderedState.initial (contendedHandover t u c) = some s ∧
      s.log = [] ++ [⟨t, .readModifyWrite () orders.compareExchange⟩] ++
        [⟨u, .load () orders.compareExchangeFailure⟩] ++
        [⟨u, .readModifyWrite () orders.exchange⟩] ++ [⟨t, .access c⟩] ++
        [⟨t, .readModifyWrite () orders.unlock⟩] ++ [⟨u, .readModifyWrite () orders.exchange⟩] ++
        [⟨u, .access c⟩] := by
  simp [contendedHandover, Automaton.run, orderedSystem, orderedStep, step, OrderedState.initial,
    initial, lockCompareExchange, lockExchange, unlockExchange, futexWait, Orders.event?, htu, htu.symm]

/-- Where no run races, the orders acquire and release. -/
theorem sound_of_raceFree {orders : Orders} {t u : T} (htu : t ≠ u) (x : L)
    (h : ∀ s, (orderedSystem T L orders).Reachable s → RaceFree Access.Conflicts s.log) :
    orders.Sound := by
  have hfree : orders.compareExchange.acquires = true ∧ orders.unlock.releases = true := by
    obtain ⟨s, hrun, hlog⟩ := run_handover orders t u (⟨x, true⟩ : Access L)
    have hs := h s (Automaton.Reachable.of_run rfl hrun)
    rw [hlog] at hs
    have hknows := (raceFree_concat_access.1 hs).2 1 t ⟨x, true⟩ (by simp) htu ⟨rfl, Or.inl rfl⟩
    simp only [knows_concat, carried_concat, not_knows_nil, not_carried_nil, Op.Acquires, Op.Releases,
      Op.Stores] at hknows
    simpa [htu] using hknows
  have htaken : orders.exchange.acquires = true ∧ orders.unlock.releases = true := by
    obtain ⟨s, hrun, hlog⟩ := run_contendedHandover orders htu (⟨x, true⟩ : Access L)
    have hs := h s (Automaton.Reachable.of_run rfl hrun)
    rw [hlog] at hs
    have hknows := (raceFree_concat_access.1 hs).2 3 t ⟨x, true⟩ (by simp) htu ⟨rfl, Or.inl rfl⟩
    simp only [knows_concat, carried_concat, not_knows_nil, not_carried_nil, Op.Acquires, Op.Releases,
      Op.Stores] at hknows
    simpa [htu, htu.symm] using hknows
  exact ⟨hfree.1, htaken.1, hfree.2⟩

/-- **Critical sections do not race.**  With the memory orders of the source, whatever the threads access
between `Lock` and `Unlock`, of two conflicting accesses of different threads one happens before the
other.  This needs that the successful compare-and-exchange and the exchanges by `2` acquire and that the
exchange by `0` releases, and nothing else: the order of a failing compare-and-exchange does not
matter. -/
theorem no_data_race [Nontrivial T] [Nonempty L] :
    (∀ s, (orderedSystem T L sourceOrders).Reachable s → RaceFree Access.Conflicts s.log) ∧
      ∀ orders : Orders,
        (∀ s, (orderedSystem T L orders).Reachable s → RaceFree Access.Conflicts s.log) ↔
          orders.Sound := by
  constructor
  · intro s hs
    exact (ordered_of_reachable sound_sourceOrders hs).raceFree
  · intro orders
    constructor
    · intro h
      obtain ⟨t, u, htu⟩ := exists_pair_ne T
      exact sound_of_raceFree htu (Classical.arbitrary L) h
    · intro ho s hs
      exact (ordered_of_reachable ho hs).raceFree

/-- Two threads and one location: a relaxed compare-and-exchange would race. -/
theorem no_data_race_two_threads :
    (∀ s, (orderedSystem (Fin 2) Unit sourceOrders).Reachable s →
        RaceFree Access.Conflicts s.log) ∧
      ¬∀ s, (orderedSystem (Fin 2) Unit { sourceOrders with compareExchange := .relaxed }).Reachable s →
        RaceFree Access.Conflicts s.log := by
  obtain ⟨hsource, horders⟩ := no_data_race (T := Fin 2) (L := Unit)
  refine ⟨hsource, ?_⟩
  intro h
  exact Bool.false_ne_true ((horders _).1 h).compareExchange

end FutexMutex
