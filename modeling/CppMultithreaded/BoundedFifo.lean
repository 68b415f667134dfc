/-
**The bounded first-in-first-out queue with a close flag, and its traces.**

This is the abstract meaning of a channel: a list of values, of bounded length, and a flag.  A
value is accepted only while the queue is open and not full; a send is rejected only when the queue
is closed; a value is received from the front; the end is reported only when the queue is closed
and empty.

Nothing in this module refers to a particular program.

Main definitions:

* `BoundedFifo.Event`, `BoundedFifo.Queue`, `BoundedFifo.Step` — what can be observed, the states
  and the steps;
* `BoundedFifo.Trace` — the traces from the empty open queue;
* `BoundedFifo.sentOf`, `BoundedFifo.receivedOf` — the values accepted and received in a trace.

Main results:

* `BoundedFifo.Trace.conservation` — **what was sent is what was received, followed by what is still
  queued**;
* `BoundedFifo.Trace.open_of_sent`, `BoundedFifo.Trace.closed_of_rejected` — a value is accepted only
  before the close, a send is rejected only after it;
* `BoundedFifo.Trace.of_exhausted` — **once the end has been reported**, everything sent has been
  received and nothing is sent or received any more.
-/

import Mathlib.Data.List.Induction
import Mathlib.Tactic.Common

set_option relaxedAutoImplicit false
set_option autoImplicit false

namespace BoundedFifo

variable {α : Type*}

/-! ### Steps and traces -/

/-- What can be observed of a queue. -/
inductive Event (α : Type*)
  /-- The value was accepted. -/
  | sent (v : α)
  /-- A send was refused. -/
  | rejected
  /-- The value was received. -/
  | received (v : α)
  /-- A receiver was told that no value will come any more. -/
  | exhausted
  /-- The queue was closed. -/
  | closed

/-- A queue: its values, the oldest first, and the close flag. -/
structure Queue (α : Type*) where
  /-- The values, the oldest first. -/
  contents : List α
  /-- The close flag. -/
  closed : Bool

/-- The steps of a queue of the given capacity. -/
inductive Step (capacity : ℕ) : Queue α → Event α → Queue α → Prop
  | sent {xs : List α} (v : α) : xs.length < capacity →
      Step capacity ⟨xs, false⟩ (.sent v) ⟨xs ++ [v], false⟩
  | rejected {xs : List α} : Step capacity ⟨xs, true⟩ .rejected ⟨xs, true⟩
  | received {x : α} {xs : List α} {b : Bool} :
      Step capacity ⟨x :: xs, b⟩ (.received x) ⟨xs, b⟩
  | exhausted : Step capacity ⟨[], true⟩ .exhausted ⟨[], true⟩
  | closed {xs : List α} {b : Bool} : Step capacity ⟨xs, b⟩ .closed ⟨xs, true⟩

/-- The traces from the empty open queue, the oldest event first. -/
inductive Trace (capacity : ℕ) : List (Event α) → Queue α → Prop
  | nil : Trace capacity [] ⟨[], false⟩
  | snoc {l : List (Event α)} {q q' : Queue α} {e : Event α} :
      Trace capacity l q → Step capacity q e q' → Trace capacity (l ++ [e]) q'

/-- The values accepted, in order. -/
def sentOf (l : List (Event α)) : List α :=
  l.filterMap fun
    | .sent v => some v
    | _ => none

/-- The values received, in order. -/
def receivedOf (l : List (Event α)) : List α :=
  l.filterMap fun
    | .received v => some v
    | _ => none

@[simp] theorem sentOf_append (l l' : List (Event α)) :
    sentOf (l ++ l') = sentOf l ++ sentOf l' := List.filterMap_append

@[simp] theorem receivedOf_append (l l' : List (Event α)) :
    receivedOf (l ++ l') = receivedOf l ++ receivedOf l' := List.filterMap_append

/-! ### Conservation -/

variable {capacity : ℕ} {l l' : List (Event α)} {q : Queue α}

/-- **What was sent is what was received, followed by what is still queued.** -/
theorem Trace.conservation (h : Trace capacity l q) :
    sentOf l = receivedOf l ++ q.contents := by
  induction h with
  | nil => rfl
  | snoc _ hs ih =>
      cases hs with
      | sent v _ =>
          rw [sentOf_append, receivedOf_append, ih]
          simp [sentOf, receivedOf]
      | received =>
          rw [sentOf_append, receivedOf_append, ih]
          simp [sentOf, receivedOf]
      | _ =>
          rw [sentOf_append, receivedOf_append, ih]
          simp [sentOf, receivedOf]

/-- The queue is closed exactly when it has been closed. -/
theorem Trace.closed_iff (h : Trace capacity l q) :
    q.closed = true ↔ Event.closed ∈ l := by
  induction h with
  | nil => simp
  | snoc _ hs ih =>
      rw [List.mem_append, ← ih]
      cases hs <;> simp

/-! ### The past and the future of an event -/

/-- A prefix of a trace is a trace. -/
theorem Trace.of_append (h : Trace capacity (l ++ l') q) : ∃ p, Trace capacity l p := by
  induction l' using List.reverseRecOn generalizing q with
  | nil => exact ⟨q, by rwa [List.append_nil] at h⟩
  | append_singleton l' e ih =>
      rw [← List.append_assoc] at h
      generalize hl : l ++ l' ++ [e] = m at h
      cases h with
      | nil => simp at hl
      | snoc ht _ =>
          obtain ⟨hl, -⟩ := List.append_inj' hl rfl
          rw [← hl] at ht
          exact ih ht

/-- The step at an event of a trace. -/
theorem Trace.step_at {e : Event α} (h : Trace capacity (l ++ e :: l') q) :
    ∃ p p', Trace capacity l p ∧ Step capacity p e p' ∧ Trace capacity (l ++ [e]) p' := by
  rw [List.append_cons] at h
  obtain ⟨p', hp'⟩ := h.of_append
  generalize hm : l ++ [e] = m at hp'
  cases hp' with
  | nil => simp at hm
  | @snoc m' p _ e' ht hs =>
      obtain ⟨rfl, he⟩ := List.append_inj' hm rfl
      obtain rfl : e = e' := by simpa using he
      exact ⟨p, p', ht, hs, Trace.snoc ht hs⟩

/-- **A value is accepted only before the close.** -/
theorem Trace.open_of_sent {v : α} (h : Trace capacity (l ++ .sent v :: l') q) :
    Event.closed ∉ l := by
  obtain ⟨p, p', hp, hs, -⟩ := h.step_at
  intro hc
  have hclosed := hp.closed_iff.2 hc
  cases hs
  simp at hclosed

/-- **A send is rejected only after the close.** -/
theorem Trace.closed_of_rejected (h : Trace capacity (l ++ .rejected :: l') q) :
    Event.closed ∈ l := by
  obtain ⟨p, p', hp, hs, -⟩ := h.step_at
  cases hs
  exact hp.closed_iff.1 rfl

/-- A closed empty queue accepts and delivers nothing any more. -/
theorem Trace.closed_empty_stays {p : Queue α} (hp : Trace capacity l p) (hc : p.closed = true)
    (he : p.contents = []) (h : Trace capacity (l ++ l') q) :
    q.closed = true ∧ q.contents = [] ∧
      ∀ e ∈ l', e = .rejected ∨ e = .exhausted ∨ e = .closed := by
  induction l' using List.reverseRecOn generalizing q with
  | nil =>
      rw [List.append_nil] at h
      have hcons := h.conservation
      rw [hp.conservation, he] at hcons
      have hq : q.contents = [] := by simpa using hcons
      exact ⟨h.closed_iff.2 (hp.closed_iff.1 hc), hq, by simp⟩
  | append_singleton l' e ih =>
      rw [← List.append_assoc] at h
      generalize hl : l ++ l' ++ [e] = m at h
      cases h with
      | nil => simp at hl
      | @snoc m' r _ e' ht hs =>
          obtain ⟨rfl, he'⟩ := List.append_inj' hl rfl
          obtain rfl : e = e' := by simpa using he'
          obtain ⟨hrc, hre, hall⟩ := ih ht
          have hlast : q.closed = true ∧ q.contents = [] ∧
              (e = .rejected ∨ e = .exhausted ∨ e = .closed) := by
            cases hs <;> simp_all
          refine ⟨hlast.1, hlast.2.1, ?_⟩
          intro x hx
          rcases List.mem_append.1 hx with hx | hx
          · exact hall x hx
          · rw [List.mem_singleton.1 hx]
            exact hlast.2.2

/-- **Once the end has been reported**, the queue has been closed, every value sent so far has been
received, and no later event sends or receives a value. -/
theorem Trace.of_exhausted (h : Trace capacity (l ++ .exhausted :: l') q) :
    Event.closed ∈ l ∧ sentOf l = receivedOf l ∧
      ∀ e ∈ l', e = .rejected ∨ e = .exhausted ∨ e = .closed := by
  obtain ⟨p, p', hp, hs, hp'⟩ := h.step_at
  rw [List.append_cons] at h
  cases hs
  refine ⟨hp.closed_iff.1 rfl, ?_, (hp'.closed_empty_stays rfl rfl h).2.2⟩
  simpa using hp.conservation

end BoundedFifo
