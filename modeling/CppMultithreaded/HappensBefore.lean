/-
**Memory orders, happens-before and data races.**

The atomic operations of a run and its accesses to plain memory form a log, in the order in which they
take effect.  An operation that acquires an atomic object synchronizes with the head of the release
sequence that it reads from: a releasing operation on the object, followed by read-modify-write
operations only.  One event happens before another if a chain of such steps and of steps inside of a
thread leads from it to the other.  Two conflicting accesses of different threads race, unless one
happens before the other.

A log grows at its end.  What happens before the next event of a thread, and before the next acquiring
operation on an object, can therefore be followed event by event.

Nothing in this module refers to a particular program.

Main definitions:

* `HappensBefore.MemoryOrder`, `HappensBefore.Op`, `HappensBefore.Event` — the events;
* `HappensBefore.Synchronizes`, `HappensBefore.Before` — the relations on the positions of a log;
* `HappensBefore.RaceFree` — conflicting accesses of different threads are ordered;
* `HappensBefore.Knows`, `HappensBefore.Carried` — what happens before the next event of a thread, and
  before the next acquiring operation on an object.

Main results:

* `HappensBefore.knows_concat`, `HappensBefore.carried_concat` — **the effect of one more event** on
  both;
* `HappensBefore.raceFree_concat_access` — the new access has to know the old ones it conflicts with.
-/

import Mathlib.Logic.Relation
import Mathlib.Order.Nat
import Mathlib.Tactic.Common

set_option relaxedAutoImplicit false
set_option autoImplicit false

namespace HappensBefore

/-! ### Events -/

/-- The memory orders. -/
inductive MemoryOrder
  | relaxed
  | acquire
  | release
  | acqRel
  deriving DecidableEq, Repr

/-- The operation acquires, where it reads. -/
def MemoryOrder.acquires : MemoryOrder → Bool
  | .acquire | .acqRel => true
  | .relaxed | .release => false

/-- The operation releases, where it writes. -/
def MemoryOrder.releases : MemoryOrder → Bool
  | .release | .acqRel => true
  | .relaxed | .acquire => false

/-- The operations: accesses `C` to plain memory, and the operations on the atomic objects `A`.  A
compare-and-exchange that fails is a load. -/
inductive Op (C A : Type*)
  | access (c : C)
  | load (a : A) (order : MemoryOrder)
  | store (a : A) (order : MemoryOrder)
  | readModifyWrite (a : A) (order : MemoryOrder)

/-- An event: who does what. -/
structure Event (T C A : Type*) where
  thread : T
  op : Op C A

variable {T C A : Type*}

/-- The operation reads `a` and acquires. -/
def Op.Acquires (a : A) : Op C A → Prop
  | .load b order | .readModifyWrite b order => b = a ∧ order.acquires = true
  | .access _ | .store _ _ => False

/-- The operation writes `a` and releases. -/
def Op.Releases (a : A) : Op C A → Prop
  | .store b order | .readModifyWrite b order => b = a ∧ order.releases = true
  | .access _ | .load _ _ => False

/-- The operation writes `a` without reading it, which ends the release sequences on `a`. -/
def Op.Stores (a : A) : Op C A → Prop
  | .store b _ => b = a
  | .access _ | .load _ _ | .readModifyWrite _ _ => False

/-! ### The relations on a log -/

/-- The value of `a` at the end of the log belongs to the release sequence that event `r` heads. -/
def Publishes (log : List (Event T C A)) (a : A) (r : ℕ) : Prop :=
  (∃ e, log[r]? = some e ∧ e.op.Releases a) ∧
    ∀ k e, r < k → log[k]? = some e → ¬e.op.Stores a

/-- Event `i` synchronizes with event `j`. -/
def Synchronizes (log : List (Event T C A)) (i j : ℕ) : Prop :=
  ∃ a e, log[j]? = some e ∧ e.op.Acquires a ∧ Publishes (log.take j) a i

/-- Event `j` comes after event `i` in the same thread. -/
def SequencedBefore (log : List (Event T C A)) (i j : ℕ) : Prop :=
  i < j ∧ ∃ e e', log[i]? = some e ∧ log[j]? = some e' ∧ e.thread = e'.thread

/-- The steps of happens-before. -/
def Direct (log : List (Event T C A)) (i j : ℕ) : Prop :=
  SequencedBefore log i j ∨ Synchronizes log i j

/-- **Event `i` happens before event `j`.** -/
def Before (log : List (Event T C A)) : ℕ → ℕ → Prop := Relation.TransGen (Direct log)

/-- **No data race**: of two conflicting accesses of different threads, one happens before the other. -/
def RaceFree (conflicts : C → C → Prop) (log : List (Event T C A)) : Prop :=
  ∀ i j t u c d, i < j → log[i]? = some ⟨t, .access c⟩ → log[j]? = some ⟨u, .access d⟩ → t ≠ u →
    conflicts c d → Before log i j

/-- Event `i` happens before the next event of thread `t`, whatever that is. -/
def Knows (log : List (Event T C A)) (t : T) (i : ℕ) : Prop :=
  ∃ j e, log[j]? = some e ∧ e.thread = t ∧ Relation.ReflTransGen (Direct log) i j

/-- Event `i` happens before the next operation that acquires `a`. -/
def Carried (log : List (Event T C A)) (a : A) (i : ℕ) : Prop :=
  ∃ r, Publishes log a r ∧ Relation.ReflTransGen (Direct log) i r

variable {log : List (Event T C A)} {e : Event T C A} {a : A} {i j r : ℕ} {t : T}

/-! ### One more event -/

theorem getElem?_concat {x : Event T C A} :
    (log ++ [e])[i]? = some x ↔ log[i]? = some x ∨ i = log.length ∧ x = e := by
  rcases Nat.lt_trichotomy i log.length with hlt | rfl | hgt
  · rw [List.getElem?_append_left hlt]
    refine ⟨Or.inl, ?_⟩
    rintro (h | ⟨rfl, -⟩)
    · exact h
    · exact absurd hlt (lt_irrefl _)
  · simp [eq_comm]
  · rw [List.getElem?_eq_none (by simpa using Nat.succ_le_of_lt hgt), List.getElem?_eq_none hgt.le]
    simp [hgt.ne']

theorem lt_of_getElem? {x : Event T C A} (h : log[i]? = some x) : i < log.length :=
  (List.getElem?_eq_some_iff.1 h).1

theorem Direct.lt (h : Direct log i j) : i < j ∧ j < log.length := by
  rcases h with ⟨hlt, e, e', -, he', -⟩ | ⟨a, e, he, -, ⟨e', he', -⟩, -⟩
  · exact ⟨hlt, lt_of_getElem? he'⟩
  · have hi := lt_of_getElem? he'
    rw [List.length_take] at hi
    exact ⟨by omega, lt_of_getElem? he⟩

/-- The steps to an event are there as soon as the event is. -/
theorem direct_concat_of_lt (hj : j < log.length) : Direct (log ++ [e]) i j ↔ Direct log i j := by
  have htake : (log ++ [e]).take j = log.take j := List.take_append_of_le_length hj.le
  have hj' : (log ++ [e])[j]? = log[j]? := List.getElem?_append_left hj
  refine or_congr (and_congr_right ?_) ?_
  · intro hlt
    rw [hj', List.getElem?_append_left (hlt.trans hj)]
  · simp only [Synchronizes, hj', htake]

theorem reaches_concat_of_lt (hj : j < log.length) :
    Relation.ReflTransGen (Direct (log ++ [e])) i j ↔ Relation.ReflTransGen (Direct log) i j := by
  constructor
  · intro h
    induction h with
    | refl => exact Relation.ReflTransGen.refl
    | tail _ hd ih => exact (ih (hd.lt.1.trans hj)).tail ((direct_concat_of_lt hj).1 hd)
  · intro h
    induction h with
    | refl => exact Relation.ReflTransGen.refl
    | tail _ hd ih => exact (ih (hd.lt.1.trans hj)).tail ((direct_concat_of_lt hj).2 hd)

theorem direct_concat_length :
    Direct (log ++ [e]) i log.length ↔
      (∃ x, log[i]? = some x ∧ x.thread = e.thread) ∨ ∃ a, e.op.Acquires a ∧ Publishes log a i := by
  have hlast : (log ++ [e])[log.length]? = some e := by simp
  refine or_congr ⟨?_, ?_⟩ ⟨?_, ?_⟩
  · rintro ⟨hlt, x, e', hx, he', hthread⟩
    rw [hlast, Option.some.injEq] at he'
    rw [List.getElem?_append_left hlt] at hx
    exact ⟨x, hx, hthread.trans (congrArg _ he'.symm)⟩
  · rintro ⟨x, hx, hthread⟩
    exact ⟨lt_of_getElem? hx, x, e, getElem?_concat.2 (Or.inl hx), hlast, hthread⟩
  · rintro ⟨a, e', he', hacquires, hpublishes⟩
    rw [hlast, Option.some.injEq] at he'
    subst he'
    rw [List.take_left] at hpublishes
    exact ⟨a, hacquires, hpublishes⟩
  · rintro ⟨a, hacquires, hpublishes⟩
    refine ⟨a, e, hlast, hacquires, ?_⟩
    rwa [List.take_left]

/-- What happens before the event at the end of the log. -/
theorem before_concat_length :
    Before (log ++ [e]) i log.length ↔
      Knows log e.thread i ∨ ∃ a, e.op.Acquires a ∧ Carried log a i := by
  rw [Before, Relation.TransGen.tail'_iff]
  constructor
  · rintro ⟨k, hreach, hd⟩
    have hreach' := (reaches_concat_of_lt hd.lt.1).1 hreach
    rcases direct_concat_length.1 hd with ⟨x, hx, hthread⟩ | ⟨a, hacquires, hpublishes⟩
    · exact Or.inl ⟨k, x, hx, hthread, hreach'⟩
    · exact Or.inr ⟨a, hacquires, k, hpublishes, hreach'⟩
  · rintro (⟨k, x, hx, hthread, hreach⟩ | ⟨a, hacquires, k, hpublishes, hreach⟩)
    · refine ⟨k, (reaches_concat_of_lt (lt_of_getElem? hx)).2 hreach, ?_⟩
      exact direct_concat_length.2 (Or.inl ⟨x, hx, hthread⟩)
    · obtain ⟨x, hx, -⟩ := hpublishes.1
      refine ⟨k, (reaches_concat_of_lt (lt_of_getElem? hx)).2 hreach, ?_⟩
      exact direct_concat_length.2 (Or.inr ⟨a, hacquires, hpublishes⟩)

theorem reaches_concat_length :
    Relation.ReflTransGen (Direct (log ++ [e])) i log.length ↔
      i = log.length ∨ Knows log e.thread i ∨ ∃ a, e.op.Acquires a ∧ Carried log a i := by
  rw [Relation.reflTransGen_iff_eq_or_transGen, ← before_concat_length, eq_comm]
  rfl

/-- **What a thread knows after one more event.** -/
theorem knows_concat :
    Knows (log ++ [e]) t i ↔ Knows log t i ∨
      e.thread = t ∧ (i = log.length ∨ ∃ a, e.op.Acquires a ∧ Carried log a i) := by
  constructor
  · rintro ⟨j, x, hx, hthread, hreach⟩
    rcases getElem?_concat.1 hx with hx | ⟨rfl, rfl⟩
    · exact Or.inl ⟨j, x, hx, hthread, (reaches_concat_of_lt (lt_of_getElem? hx)).1 hreach⟩
    · rcases reaches_concat_length.1 hreach with hi | hknows | hcarried
      · exact Or.inr ⟨hthread, Or.inl hi⟩
      · exact Or.inl (hthread ▸ hknows)
      · exact Or.inr ⟨hthread, Or.inr hcarried⟩
  · rintro (⟨j, x, hx, hthread, hreach⟩ | ⟨hthread, h⟩)
    · refine ⟨j, x, getElem?_concat.2 (Or.inl hx), hthread, ?_⟩
      exact (reaches_concat_of_lt (lt_of_getElem? hx)).2 hreach
    · refine ⟨log.length, e, by simp, hthread, reaches_concat_length.2 ?_⟩
      rcases h with hi | hcarried
      · exact Or.inl hi
      · exact Or.inr (Or.inr hcarried)

theorem publishes_concat :
    Publishes (log ++ [e]) a r ↔
      Publishes log a r ∧ ¬e.op.Stores a ∨ r = log.length ∧ e.op.Releases a := by
  constructor
  · rintro ⟨⟨x, hx, hreleases⟩, hsequence⟩
    rcases getElem?_concat.1 hx with hx' | ⟨rfl, rfl⟩
    · refine Or.inl ⟨⟨⟨x, hx', hreleases⟩, ?_⟩, ?_⟩
      · intro k y hk hy
        exact hsequence k y hk (getElem?_concat.2 (Or.inl hy))
      · exact hsequence log.length e (lt_of_getElem? hx') (by simp)
    · exact Or.inr ⟨rfl, hreleases⟩
  · rintro (⟨⟨⟨x, hx, hreleases⟩, hsequence⟩, hstores⟩ | ⟨rfl, hreleases⟩)
    · refine ⟨⟨x, getElem?_concat.2 (Or.inl hx), hreleases⟩, ?_⟩
      intro k y hk hy
      rcases getElem?_concat.1 hy with hy | ⟨-, rfl⟩
      · exact hsequence k y hk hy
      · exact hstores
    · refine ⟨⟨e, by simp, hreleases⟩, ?_⟩
      intro k y hk hy
      have hlt := lt_of_getElem? hy
      rw [List.length_append, List.length_singleton] at hlt
      omega

/-- **What an object carries after one more event.** -/
theorem carried_concat :
    Carried (log ++ [e]) a i ↔ Carried log a i ∧ ¬e.op.Stores a ∨
      e.op.Releases a ∧
        (i = log.length ∨ Knows log e.thread i ∨ ∃ b, e.op.Acquires b ∧ Carried log b i) := by
  constructor
  · rintro ⟨r, hpublishes, hreach⟩
    rcases publishes_concat.1 hpublishes with ⟨hpublishes, hstores⟩ | ⟨rfl, hreleases⟩
    · obtain ⟨x, hx, -⟩ := hpublishes.1
      refine Or.inl ⟨⟨r, hpublishes, ?_⟩, hstores⟩
      exact (reaches_concat_of_lt (lt_of_getElem? hx)).1 hreach
    · exact Or.inr ⟨hreleases, reaches_concat_length.1 hreach⟩
  · rintro (⟨⟨r, hpublishes, hreach⟩, hstores⟩ | ⟨hreleases, h⟩)
    · obtain ⟨x, hx, -⟩ := hpublishes.1
      refine ⟨r, publishes_concat.2 (Or.inl ⟨hpublishes, hstores⟩), ?_⟩
      exact (reaches_concat_of_lt (lt_of_getElem? hx)).2 hreach
    · exact ⟨log.length, publishes_concat.2 (Or.inr ⟨rfl, hreleases⟩), reaches_concat_length.2 h⟩

@[simp] theorem not_knows_nil : ¬Knows ([] : List (Event T C A)) t i := by
  rintro ⟨j, e, he, -⟩
  simp at he

@[simp] theorem not_carried_nil : ¬Carried ([] : List (Event T C A)) a i := by
  rintro ⟨r, ⟨⟨e, he, -⟩, -⟩, -⟩
  simp at he

/-! ### The rules for invariants -/

/-- What a thread knows, it does not forget. -/
theorem Knows.concat (h : Knows log t i) : Knows (log ++ [e]) t i := knows_concat.2 (Or.inl h)

theorem knows_of_getElem? (h : log[i]? = some e) : Knows log e.thread i :=
  ⟨i, e, h, rfl, Relation.ReflTransGen.refl⟩

/-- A thread knows what it does. -/
theorem knows_self : Knows (log ++ [e]) e.thread log.length :=
  knows_concat.2 (Or.inr ⟨rfl, Or.inl rfl⟩)

/-- A thread that acquires an object knows what the object carries. -/
theorem Carried.knows (h : Carried log a i) (he : e.op.Acquires a) :
    Knows (log ++ [e]) e.thread i :=
  knows_concat.2 (Or.inr ⟨rfl, Or.inr ⟨a, he, h⟩⟩)

/-- An object carries on what it carries, unless something is stored to it. -/
theorem Carried.concat (h : Carried log a i) (he : ¬e.op.Stores a) : Carried (log ++ [e]) a i :=
  carried_concat.2 (Or.inl ⟨h, he⟩)

/-- An object that is released carries what the thread knows. -/
theorem Knows.carried (h : Knows log e.thread i) (he : e.op.Releases a) :
    Carried (log ++ [e]) a i :=
  carried_concat.2 (Or.inr ⟨he, Or.inr (Or.inl h)⟩)

/-! ### Races -/

variable {conflicts : C → C → Prop}

theorem raceFree_nil : RaceFree conflicts ([] : List (Event T C A)) := by
  intro i j t u c d _ hi
  simp at hi

theorem before_concat_of_lt (hj : j < log.length) : Before (log ++ [e]) i j ↔ Before log i j := by
  rw [Before, Before, Relation.TransGen.tail'_iff, Relation.TransGen.tail'_iff]
  refine exists_congr ?_
  intro k
  rw [direct_concat_of_lt hj]
  refine and_congr_left ?_
  intro hd
  exact reaches_concat_of_lt (hd.lt.1.trans hj)

/-- **A new access** does not race exactly if its thread knows the accesses that it conflicts with. -/
theorem raceFree_concat_access {u : T} {d : C} :
    RaceFree conflicts (log ++ [⟨u, .access d⟩]) ↔ RaceFree conflicts log ∧
      ∀ i t c, log[i]? = some ⟨t, .access c⟩ → t ≠ u → conflicts c d → Knows log u i := by
  constructor
  · intro h
    constructor
    · intro i j t u c d hij hi hj htu hcd
      have hlt := lt_of_getElem? hj
      exact (before_concat_of_lt hlt).1
        (h i j t u c d hij (getElem?_concat.2 (Or.inl hi)) (getElem?_concat.2 (Or.inl hj)) htu hcd)
    · intro i t c hi htu hcd
      have hbefore := h i log.length t u c d (lt_of_getElem? hi) (getElem?_concat.2 (Or.inl hi))
        (by simp) htu hcd
      rcases before_concat_length.1 hbefore with hknows | ⟨a, hacquires, -⟩
      · exact hknows
      · exact hacquires.elim
  · rintro ⟨hfree, hnew⟩ i j t u' c d' hij hi hj htu hcd
    rcases getElem?_concat.1 hj with hj | ⟨rfl, heq⟩
    · have hlt := lt_of_getElem? hj
      rw [before_concat_of_lt hlt]
      rw [List.getElem?_append_left (hij.trans hlt)] at hi
      exact hfree i j t u' c d' hij hi hj htu hcd
    · obtain ⟨rfl, hop⟩ := Event.mk.inj heq
      obtain rfl := Op.access.inj hop
      rw [List.getElem?_append_left hij] at hi
      exact before_concat_length.2 (Or.inl (hnew i t c hi htu hcd))

/-- An event that is no access does not race. -/
theorem raceFree_concat (he : ∀ d, e.op ≠ .access d) :
    RaceFree conflicts (log ++ [e]) ↔ RaceFree conflicts log := by
  constructor
  · intro h i j t u c d hij hi hj htu hcd
    have hlt := lt_of_getElem? hj
    exact (before_concat_of_lt hlt).1
      (h i j t u c d hij (getElem?_concat.2 (Or.inl hi)) (getElem?_concat.2 (Or.inl hj)) htu hcd)
  · intro h i j t u c d hij hi hj htu hcd
    rcases getElem?_concat.1 hj with hj | ⟨-, rfl⟩
    · have hlt := lt_of_getElem? hj
      rw [before_concat_of_lt hlt]
      rw [List.getElem?_append_left (hij.trans hlt)] at hi
      exact h i j t u c d hij hi hj htu hcd
    · exact absurd rfl (he d)

end HappensBefore
