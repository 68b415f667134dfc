/-
**The buffered channel loses no wake-up.**

The notifications of `Send` and `Recv` are single, and are sent after the mutex has been released.
A notification may therefore reach nobody, be overtaken by a thread that never slept, or wake a
thread whose value is taken by somebody else.  What rescues the sleepers is a count: while some
thread sleeps on a condition variable, the values (or the free slots) available for it are at most
the notifications still owed plus the woken threads that have not yet taken theirs.  Once the
channel is closed, a sleeper is waited for by the `notify_all` of `Close`.

A woken thread that has evaluated its predicate again, and found it true, still holds the mutex and
has yet to make its update; between these two steps the value it is about to take is not owed to
anybody else.

Main definitions:

* `BufferedChannel.available` — the values, or the free slots, that a condition variable announces;
* `BufferedChannel.Pc.credit` — what a thread contributes to the wake-ups of a condition variable;
* `BufferedChannel.Covered`, `BufferedChannel.CloseOwes` — the two invariants;
* `BufferedChannel.Pc.owes`, `BufferedChannel.Pc.unchecked`, `BufferedChannel.Pc.rechecked` — a
  thread owes a notification, has been woken and not evaluated its predicate again, or has evaluated
  it and not made its update.

Main results:

* `BufferedChannel.Covered.step`, `BufferedChannel.CloseOwes.step` — every step keeps the invariants;
* `BufferedChannel.channel_no_lost_wakeup` — **no wake-up is lost**;
* `BufferedChannel.rechecked_receiver_hides_value` — a state where the only thread that will take
  the value available is between its evaluation and its update.
-/

import CppMultithreaded.Channel
import CppMultithreaded.ThreadWeight

set_option relaxedAutoImplicit false
set_option autoImplicit false

namespace BufferedChannel

variable {α : Type*} {ι : Type*}

/-! ### Credits -/

/-- What a condition variable announces: values for `notEmpty`, free slots for `notFull`. -/
def available (c : Channel α) : Cond → ℕ
  | .notEmpty => c.size
  | .notFull => c.capacity - c.size

/-- What a thread contributes to the wake-ups of `c`: a notification still owed by a `Send` or a
`Recv`, or a thread that has been woken and has not made its update. -/
def Pc.credit (c : Cond) : Pc α → ℕ
  | .unlocking c' | .notifying c' => if c' = c then 1 else 0
  | .woken op => if op.waitsOn = c then 1 else 0
  | .checking op true | .updating op true => if op.waitsOn = c then 1 else 0
  | _ => 0

/-- The invariant of the single notifications: while the channel is open and some thread sleeps on
`c`, what `c` announces is covered by the credits of the threads. -/
def Covered [Fintype ι] (c : Cond) (s : State α ι) : Prop :=
  s.channel.closed = false → (∃ t, (s.pc t).sleepsOn c = true) → available s.channel c ≤ ∑ t, (s.pc t).credit c

/-- A thread in `Close` still owes a `notify_all` to `c`. -/
def Pc.owesAll : Cond → Pc α → Bool
  | _, .closeUnlocking | _, .closeNotifying .notEmpty => true
  | .notFull, .closeNotifying .notFull => true
  | _, _ => false

/-- The invariant of the close: while some thread sleeps on `c` although the channel is closed,
some thread still owes a `notify_all` to `c`. -/
def CloseOwes (c : Cond) (s : State α ι) : Prop :=
  s.channel.closed = true → (∃ t, (s.pc t).sleepsOn c = true) → ∃ t, (s.pc t).owesAll c = true

theorem Pc.sleepsOn_wake (c : Cond) (p : Pc α) : (p.wake c).sleepsOn c = false := by
  cases p with
  | asleep op =>
      simp only [Pc.wake]
      split_ifs with hop
      · rfl
      · simpa [Pc.sleepsOn] using hop
  | _ => rfl

/-- Waking the sleepers of `c` leaves the sleepers of the other condition variable asleep. -/
theorem Pc.sleepsOn_wake_of_ne {c c' : Cond} (hc : c ≠ c') (p : Pc α) :
    (p.wake c).sleepsOn c' = p.sleepsOn c' := by
  cases p with
  | asleep op =>
      simp only [Pc.wake]
      split_ifs with hop
      · simp [Pc.sleepsOn, hop, hc]
      · rfl
  | _ => rfl

theorem Pc.credit_wake_of_ne {c c' : Cond} (hc : c ≠ c') (p : Pc α) :
    (p.wake c).credit c' = p.credit c' := by
  cases p with
  | asleep op =>
      simp only [Pc.wake]
      split_ifs with hop
      · simp [Pc.credit, hop, hc]
      · rfl
  | _ => rfl

theorem Pc.owesAll_wake (c c' : Cond) (p : Pc α) : (p.wake c).owesAll c' = p.owesAll c' := by
  cases p with
  | asleep op =>
      simp only [Pc.wake]
      split_ifs
      · cases c' <;> rfl
      · rfl
  | _ => rfl

/-- A sleeper of `c` that is woken carries one credit for `c`. -/
theorem Pc.credit_wake {c : Cond} {p : Pc α} (h : p.sleepsOn c = true) :
    p.credit c = 0 ∧ (p.wake c).credit c = 1 := by
  cases p with
  | asleep op =>
      have hop : op.waitsOn = c := by simpa [Pc.sleepsOn] using h
      simp [Pc.credit, Pc.wake, hop]
  | _ => simp [Pc.sleepsOn] at h

variable [DecidableEq ι]

/-- The sleepers after thread `t` has moved to a program point where it does not sleep on `c`. -/
theorem exists_sleepsOn_of_update {c : Cond} {f : ι → Pc α} {t : ι} {p : Pc α}
    (hp : p.sleepsOn c = false) (h : ∃ u, (Function.update f t p u).sleepsOn c = true) :
    ∃ u, (f u).sleepsOn c = true := by
  obtain ⟨u, hu⟩ := h
  by_cases hut : u = t
  · rw [hut, Function.update_self, hp] at hu
    simp at hu
  · rw [Function.update_of_ne hut] at hu
    exact ⟨u, hu⟩

variable [Fintype ι] {c : Cond} {s s' : State α ι} {t : ι} {p : Pc α}

/-- A move of one thread, which does not fall asleep on `c`, keeps the count if it spends no more
credits than it consumes of what `c` announces. -/
theorem Covered.move (h : Covered c s) (hpc : s'.pc = Function.update s.pc t p)
    (hp : p.sleepsOn c = false) (hopen : s'.channel.closed = false → s.channel.closed = false)
    (hle : available s'.channel c + (s.pc t).credit c ≤ available s.channel c + p.credit c) :
    Covered c s' := by
  intro ho hsleep
  rw [hpc] at hsleep
  have hcov := h (hopen ho) (exists_sleepsOn_of_update hp hsleep)
  have hsum := ThreadWeight.sum_update (Pc.credit c) s.pc t p
  rw [hpc]
  omega

omit [DecidableEq ι] in
/-- When `c` announces nothing there is nothing to cover. -/
theorem Covered.of_available_eq_zero (h : available s.channel c = 0) : Covered c s := by
  intro _ _
  omega

omit [DecidableEq ι] in
theorem Covered.of_closed (h : s.channel.closed = true) : Covered c s := by
  intro ho
  rw [h] at ho
  simp at ho

omit [DecidableEq ι] in
/-- Waking the sleepers of a condition variable. -/
theorem Covered.wakeAll (h : Covered c s) (c' : Cond) :
    Covered c { s with pc := fun u => (s.pc u).wake c' } := by
  by_cases hc : c' = c
  · rintro - ⟨u, hu⟩
    rw [hc, Pc.sleepsOn_wake] at hu
    simp at hu
  · rintro ho ⟨u, hu⟩
    rw [Pc.sleepsOn_wake_of_ne hc] at hu
    simp only [Pc.credit_wake_of_ne hc]
    exact h ho ⟨u, hu⟩

omit [Fintype ι] in
/-- A move of one thread, which does not fall asleep on `c` and which still owes its `notify_all`
if it did, on a channel that is closed only if it was. -/
theorem CloseOwes.move (h : CloseOwes c s) (hpc : s'.pc = Function.update s.pc t p)
    (hp : p.sleepsOn c = false) (hclosed : s'.channel.closed = true → s.channel.closed = true)
    (ho : (s.pc t).owesAll c = true → p.owesAll c = true) : CloseOwes c s' := by
  intro hc hsleep
  rw [hpc] at hsleep
  obtain ⟨u, hu⟩ := h (hclosed hc) (exists_sleepsOn_of_update hp hsleep)
  by_cases hut : u = t
  · refine ⟨t, ?_⟩
    rw [hpc, Function.update_self]
    exact ho (by rw [← hut]; exact hu)
  · refine ⟨u, ?_⟩
    rw [hpc, Function.update_of_ne hut]
    exact hu

omit [Fintype ι] [DecidableEq ι] in
theorem CloseOwes.of_owesAll (h : (s.pc t).owesAll c = true) : CloseOwes c s :=
  fun _ _ => ⟨t, h⟩

omit [Fintype ι] [DecidableEq ι] in
theorem CloseOwes.of_open (h : s.channel.closed = false) : CloseOwes c s := by
  intro hc
  rw [h] at hc
  simp at hc

/-! ### The steps -/

omit [DecidableEq ι] [Fintype ι] in
theorem Pc.afterLock_credit {q : Pc α} (h : p.afterLock = some q) :
    q.credit c = p.credit c ∧ q.sleepsOn c = false ∧ p.owesAll c = false := by
  cases p <;> simp only [Pc.afterLock, Option.some.injEq, reduceCtorEq] at h <;> subst h <;>
    cases c <;> simp [Pc.credit, Pc.sleepsOn, Pc.owesAll]

omit [DecidableEq ι] [Fintype ι] in
theorem Pc.afterUnlock_credit {q : Pc α} (h : p.afterUnlock = some q) :
    q.credit c = p.credit c ∧ q.sleepsOn c = false ∧
      (p.owesAll c = true → q.owesAll c = true) := by
  cases p <;> simp only [Pc.afterUnlock, Option.some.injEq, reduceCtorEq] at h <;> subst h <;>
    cases c <;> simp [Pc.credit, Pc.sleepsOn, Pc.owesAll]

omit [DecidableEq ι] [Fintype ι] in
/-- What a condition variable announces on an open channel is zero when its predicate is false. -/
theorem available_eq_zero {ch : Channel α} (h : ch.ready c = false) :
    available ch c = 0 ∧ ch.closed = false := by
  cases c with
  | notEmpty =>
      simp only [Channel.ready, Bool.or_eq_false_iff, decide_eq_false_iff_not] at h
      exact ⟨by simp only [available]; omega, h.1⟩
  | notFull =>
      simp only [Channel.ready, Bool.or_eq_false_iff, decide_eq_false_iff_not] at h
      exact ⟨by simp only [available]; omega, h.1⟩

variable [Inhabited α]

omit [Fintype ι] [Inhabited α] in
/-- The sleepers after `notify_one` slept before it. -/
theorem exists_sleepsOn_of_wakeOne {u : ι} {c' : Cond}
    (h : ∃ v, (((s.goto u ((s.pc u).wake c')).goto t .outside).pc v).sleepsOn c = true) :
    ∃ v, (s.pc v).sleepsOn c = true := by
  obtain ⟨v, hv⟩ := exists_sleepsOn_of_update rfl h
  by_cases hvu : v = u
  · simp only [State.goto, hvu, Function.update_self] at hv
    refine ⟨u, ?_⟩
    by_cases hc : c' = c
    · rw [hc, Pc.sleepsOn_wake] at hv
      simp at hv
    · rwa [Pc.sleepsOn_wake_of_ne hc] at hv
  · simp only [State.goto, Function.update_of_ne hvu] at hv
    exact ⟨v, hv⟩

omit [Fintype ι] [Inhabited α] [DecidableEq ι] in
/-- A thread that notifies does not sleep. -/
theorem ne_of_notifying {u : ι} {c' : Cond} (ht : s.pc t = .notifying c')
    (hu : (s.pc u).sleepsOn c' = true) : t ≠ u := by
  intro htu
  rw [← htu, ht] at hu
  simp [Pc.sleepsOn] at hu

omit [Inhabited α] in
/-- `notify_one` exchanges the credit of the notification for the credit of the thread woken. -/
theorem Covered.wakeOne (h : Covered c s) {u : ι} {c' : Cond}
    (ht : s.pc t = .notifying c') (hu : (s.pc u).sleepsOn c' = true) :
    Covered c ((s.goto u ((s.pc u).wake c')).goto t .outside) := by
  intro ho hsleep
  have hcov := h ho (exists_sleepsOn_of_wakeOne hsleep)
  have hfirst := ThreadWeight.sum_update (Pc.credit c) s.pc u ((s.pc u).wake c')
  have hsecond := ThreadWeight.sum_update (Pc.credit c)
    (Function.update s.pc u ((s.pc u).wake c')) t .outside
  have hnotifying : (Pc.notifying c' : Pc α).credit c = if c' = c then 1 else 0 := rfl
  have houtside : (Pc.outside : Pc α).credit c = 0 := rfl
  have hcredit : (s.pc u).credit c + (Pc.notifying c' : Pc α).credit c ≤
      ((s.pc u).wake c').credit c := by
    by_cases hc : c' = c
    · rw [hnotifying, if_pos hc, ← hc, (Pc.credit_wake hu).1, (Pc.credit_wake hu).2]
    · rw [hnotifying, if_neg hc, Pc.credit_wake_of_ne hc]
      omega
  rw [Function.update_of_ne (ne_of_notifying ht hu), ht] at hsecond
  simp only [State.goto]
  omega

/-- Every step keeps the count. -/
theorem Covered.step (h : Covered c s) (hl : Locked s) (hs : Effect s s') : Covered c s' := by
  cases hs with
  | call t op ht => exact h.move rfl rfl id (by simp [ht, Pc.credit, State.goto])
  | callClose t ht => exact h.move rfl rfl id (by simp [ht, Pc.credit, State.goto])
  | lock t p hm hp =>
      obtain ⟨hcredit, hsleep, -⟩ := Pc.afterLock_credit (c := c) hp
      exact h.move rfl hsleep id (by simp [hcredit, State.goto])
  | proceed t op w ht hr =>
      refine h.move rfl rfl id ?_
      cases w <;> simp [ht, Pc.credit, State.goto]
  | sleep t op w ht hr =>
      by_cases hc : op.waitsOn = c
      · -- a thread sleeps only when there is nothing for it
        rw [hc] at hr
        exact Covered.of_available_eq_zero (available_eq_zero hr).1
      · refine h.move rfl (by simp [Pc.sleepsOn, hc]) id ?_
        cases w <;> simp [ht, Pc.credit, State.goto, hc]
  | sendRejected t v w ht hc => exact Covered.of_closed hc
  | sendStored t v w ht hc =>
      have hready := hl.ready t (.send v) w ht
      have hlt : s.channel.size < s.channel.capacity := by
        simpa [Channel.ready, Op.waitsOn, hc] using hready
      refine h.move rfl rfl (fun _ => hc) ?_
      rw [ht]
      cases c <;> cases w <;> simp [available, Channel.send, Pc.credit, Op.waitsOn] <;> omega
  | recvExhausted t w ht hz =>
      have hready := hl.ready t .recv w ht
      have hclosed : s.channel.closed = true := by
        simpa [Channel.ready, Op.waitsOn, hz] using hready
      exact Covered.of_closed hclosed
  | recvTaken t w m ht hz =>
      refine h.move rfl rfl id ?_
      rw [ht]
      cases c <;> cases w <;> simp [available, Channel.recv, Pc.credit, Op.waitsOn] <;> omega
  | closeAgain t ht hc => exact Covered.of_closed hc
  | closeFirst t ht hc => exact Covered.of_closed rfl
  | unlock t p hp =>
      obtain ⟨hcredit, hsleep, -⟩ := Pc.afterUnlock_credit (c := c) hp
      exact h.move rfl hsleep id (by simp [hcredit, State.goto])
  | wakeOne t u c' ht hu => exact h.wakeOne ht hu
  | wakeNone t c' ht hnone =>
      by_cases hc : c' = c
      · rintro - hsleep
        obtain ⟨u, hu⟩ := exists_sleepsOn_of_update rfl hsleep
        rw [← hc, hnone u] at hu
        simp at hu
      · exact h.move rfl rfl id (by simp [ht, Pc.credit, hc, State.goto])
  | wakeAll t c' ht =>
      have hwake := h.wakeAll c'
      cases c' with
      | notEmpty =>
          refine hwake.move rfl rfl id (Nat.add_le_add_left ?_ _)
          simp [ht, Pc.wake, Pc.credit]
      | notFull =>
          refine hwake.move rfl rfl id (Nat.add_le_add_left ?_ _)
          simp [ht, Pc.wake, Pc.credit]
  | spuriousWakeup t op ht =>
      exact h.move rfl rfl id (by simp [ht, Pc.credit, State.goto])

omit [DecidableEq ι] [Fintype ι] [Inhabited α] in
theorem CloseOwes.wakeAll (h : CloseOwes c s) (c' : Cond) :
    CloseOwes c { s with pc := fun u => (s.pc u).wake c' } := by
  rintro hclosed ⟨u, hu⟩
  by_cases hc : c' = c
  · rw [hc, Pc.sleepsOn_wake] at hu
    simp at hu
  · rw [Pc.sleepsOn_wake_of_ne hc] at hu
    simp only [Pc.owesAll_wake]
    exact h hclosed ⟨u, hu⟩

omit [Fintype ι] in
/-- Every step keeps the invariant of the close. -/
theorem CloseOwes.step (h : CloseOwes c s) (hs : Effect s s') : CloseOwes c s' := by
  have hnot : ∀ {t : ι} {q : Pc α} {P : Prop}, s.pc t = q → q.owesAll c = false →
      (s.pc t).owesAll c = true → P := by
    intro t q P ht hq hp
    rw [ht, hq] at hp
    simp at hp
  cases hs with
  | call t op ht => exact h.move rfl rfl id (hnot ht (by cases c <;> rfl))
  | callClose t ht => exact h.move rfl rfl id (hnot ht (by cases c <;> rfl))
  | lock t p hm hp =>
      obtain ⟨-, hsleep, howes⟩ := Pc.afterLock_credit (c := c) hp
      exact h.move rfl hsleep id (hnot rfl howes)
  | proceed t op w ht hr => exact h.move rfl rfl id (hnot ht (by cases c <;> rfl))
  | sleep t op w ht hr => exact CloseOwes.of_open (available_eq_zero hr).2
  | sendRejected t v w ht hc => exact h.move rfl rfl id (hnot ht (by cases c <;> rfl))
  | sendStored t v w ht hc => exact CloseOwes.of_open hc
  | recvExhausted t w ht hz => exact h.move rfl rfl id (hnot ht (by cases c <;> rfl))
  | recvTaken t w m ht hz => exact h.move rfl rfl id (hnot ht (by cases c <;> rfl))
  | closeAgain t ht hc => exact h.move rfl rfl id (hnot ht (by cases c <;> rfl))
  | closeFirst t ht hc =>
      refine CloseOwes.of_owesAll (t := t) ?_
      simp only [State.goto, Function.update_self]
      cases c <;> rfl
  | unlock t p hp =>
      obtain ⟨-, hsleep, howes⟩ := Pc.afterUnlock_credit (c := c) hp
      exact h.move rfl hsleep id howes
  | wakeOne t u c' ht hu =>
      intro hclosed hsleep
      obtain ⟨w, hw⟩ := h hclosed (exists_sleepsOn_of_wakeOne hsleep)
      -- the thread that owes the notification of all is not the one that notifies now
      have hwt : w ≠ t := by
        intro hwt
        rw [hwt] at hw
        exact hnot ht (by cases c <;> rfl) hw
      refine ⟨w, ?_⟩
      simp only [State.goto, Function.update_of_ne hwt]
      by_cases hwu : w = u
      · rw [hwu, Function.update_self, Pc.owesAll_wake, ← hwu]
        exact hw
      · rw [Function.update_of_ne hwu]
        exact hw
  | wakeNone t c' ht hnone => exact h.move rfl rfl id (hnot ht (by cases c <;> rfl))
  | wakeAll t c' ht =>
      have hwake := h.wakeAll c'
      cases c' with
      | notEmpty =>
          cases c with
          | notEmpty =>
              rintro - hsleep
              obtain ⟨u, hu⟩ := exists_sleepsOn_of_update rfl hsleep
              rw [Pc.sleepsOn_wake] at hu
              simp at hu
          | notFull =>
              refine CloseOwes.of_owesAll (t := t) ?_
              simp [notifyAll, State.goto, Pc.owesAll]
      | notFull =>
          cases c with
          | notEmpty =>
              refine hwake.move rfl rfl id ?_
              simp [ht, Pc.wake, Pc.owesAll]
          | notFull =>
              rintro - hsleep
              obtain ⟨u, hu⟩ := exists_sleepsOn_of_update rfl hsleep
              rw [Pc.sleepsOn_wake] at hu
              simp at hu
  | spuriousWakeup t op ht => exact h.move rfl rfl id (hnot ht (by cases c <;> rfl))

variable {size : ℤ}

theorem covered_of_reachable (h : (system α ι size).Reachable s) : Covered c s := by
  refine h.invariant ?_ ?_
  · intro s hs
    rw [show s = initial size from hs]
    rintro - ⟨t, ht⟩
    simp [initial, Pc.sleepsOn] at ht
  · intro s a s' hr hI hs
    exact hI.step (locked_of_reachable hr) (effect_of_step hs)

theorem closeOwes_of_reachable (h : (system α ι size).Reachable s) : CloseOwes c s := by
  refine h.invariant ?_ ?_
  · intro s hs
    rw [show s = initial size from hs]
    exact CloseOwes.of_open rfl
  · intro s a s' _ hI hs
    exact hI.step (effect_of_step hs)

/-! ### No lost wake-up -/

/-- A thread at this program point owes a notification on `c`. -/
def Pc.owes (c : Cond) : Pc α → Bool
  | .unlocking c' | .notifying c' => decide (c' = c)
  | p => p.owesAll c

/-- A thread at this program point has been woken on `c` and has not evaluated its predicate
again. -/
def Pc.unchecked (c : Cond) : Pc α → Bool
  | .woken op | .checking op true => decide (op.waitsOn = c)
  | _ => false

/-- A thread at this program point has been woken on `c`, has evaluated its predicate again and has
found it true, and has not made its update. -/
def Pc.rechecked (c : Cond) : Pc α → Bool
  | .updating op true => decide (op.waitsOn = c)
  | _ => false

omit [DecidableEq ι] [Fintype ι] [Inhabited α] in
theorem Pc.of_credit_pos (h : 0 < p.credit c) :
    p.owes c = true ∨ p.unchecked c = true ∨ p.rechecked c = true := by
  cases p with
  | unlocking c' => exact Or.inl (by simpa [Pc.credit, Pc.owes, pos_iff_ne_zero] using h)
  | notifying c' => exact Or.inl (by simpa [Pc.credit, Pc.owes, pos_iff_ne_zero] using h)
  | woken op =>
      exact Or.inr (Or.inl (by simpa [Pc.credit, Pc.unchecked, pos_iff_ne_zero] using h))
  | checking op w =>
      cases w with
      | true => exact Or.inr (Or.inl (by simpa [Pc.credit, Pc.unchecked, pos_iff_ne_zero] using h))
      | false => simp [Pc.credit] at h
  | updating op w =>
      cases w with
      | true =>
          exact Or.inr (Or.inr (by simpa [Pc.credit, Pc.rechecked, pos_iff_ne_zero] using h))
      | false => simp [Pc.credit] at h
  | _ => simp [Pc.credit] at h

omit [DecidableEq ι] [Fintype ι] [Inhabited α] in
theorem Pc.owes_of_owesAll (h : p.owesAll c = true) : p.owes c = true := by
  cases p <;> first | exact h | (cases c <;> simp [Pc.owesAll] at h)

omit [DecidableEq ι] [Fintype ι] [Inhabited α] in
theorem available_pos {ch : Channel α} (h : ch.ready c = true) (ho : ch.closed = false) :
    0 < available ch c := by
  cases c with
  | notEmpty => simpa [Channel.ready, ho, available] using h
  | notFull =>
      have hlt : ch.size < ch.capacity := by simpa [Channel.ready, ho] using h
      simp only [available]
      omega

omit [Inhabited α] [DecidableEq ι] in
/-- Where the two invariants hold, a thread that sleeps although its predicate is true is waited for. -/
theorem Covered.law (hcov : Covered c s) (hclose : CloseOwes c s) (hl : Locked s)
    (ht : (s.pc t).sleepsOn c = true) (hready : s.channel.ready c = true) :
    (∃ u, (s.pc u).owes c = true) ∨ (∃ u, (s.pc u).unchecked c = true) ∨
      ∃ u, (s.pc u).rechecked c = true ∧ s.mtx = some u := by
  cases hclosed : s.channel.closed with
  | true =>
      obtain ⟨u, hu⟩ := hclose hclosed ⟨t, ht⟩
      exact Or.inl ⟨u, Pc.owes_of_owesAll hu⟩
  | false =>
      have hpos := available_pos hready hclosed
      have hle := hcov hclosed ⟨t, ht⟩
      obtain ⟨u, hu⟩ := ThreadWeight.exists_of_sum_pos (hpos.trans_le hle)
      rcases Pc.of_credit_pos hu with hu | hu | hu
      · exact Or.inl ⟨u, hu⟩
      · exact Or.inr (Or.inl ⟨u, hu⟩)
      · refine Or.inr (Or.inr ⟨u, hu, hl.owner u ?_⟩)
        cases hp : s.pc u <;> simp [hp, Pc.rechecked] at hu ⊢
        rfl

/-- **No wake-up is lost.**  While a thread sleeps on `c` although the predicate it waits for is
true, some thread owes a notification on `c`; or some thread has been woken on `c` and has not
evaluated its predicate again; or some thread has been woken on `c`, has evaluated its predicate
again, still holds the mutex and has not made its update.  So the threads are never all asleep or
outside of every call while one of them sleeps although its predicate is true. -/
theorem channel_no_lost_wakeup (h : (system α ι size).Reachable s) :
    (∀ c t, (s.pc t).sleepsOn c = true → s.channel.ready c = true →
        (∃ u, (s.pc u).owes c = true) ∨ (∃ u, (s.pc u).unchecked c = true) ∨
          ∃ u, (s.pc u).rechecked c = true ∧ s.mtx = some u) ∧
      ((∀ t, s.pc t = .outside ∨ ∃ op, s.pc t = .asleep op) →
        ∀ c t, (s.pc t).sleepsOn c = true → s.channel.ready c = false) := by
  have hlaw : ∀ c t, (s.pc t).sleepsOn c = true → s.channel.ready c = true →
      (∃ u, (s.pc u).owes c = true) ∨ (∃ u, (s.pc u).unchecked c = true) ∨
        ∃ u, (s.pc u).rechecked c = true ∧ s.mtx = some u :=
    fun c t ht hready => (covered_of_reachable h).law (closeOwes_of_reachable h)
      (locked_of_reachable h) ht hready
  refine ⟨hlaw, ?_⟩
  intro hquiet c t ht
  by_contra hready
  have hnone : ∀ u, (s.pc u).owes c = false ∧ (s.pc u).unchecked c = false ∧
      (s.pc u).rechecked c = false := by
    intro u
    rcases hquiet u with hu | ⟨op, hu⟩
    · rw [hu]
      cases c <;> exact ⟨rfl, rfl, rfl⟩
    · rw [hu]
      cases c <;> exact ⟨rfl, rfl, rfl⟩
  rcases hlaw c t ht (by simpa using hready) with ⟨u, hu⟩ | ⟨u, hu⟩ | ⟨u, hu, -⟩
  · simp [(hnone u).1] at hu
  · simp [(hnone u).2.1] at hu
  · simp [(hnone u).2.2] at hu

/-- A run of a channel of capacity one: threads `0` and `1` fall asleep in `Recv`; thread `2` sends
a value and wakes thread `0`, which takes the mutex. -/
def twoReceivers : List (Action ℕ (Fin 3)) :=
  [.call 0 .recv, .lock 0, .check 0, .call 1 .recv, .lock 1, .check 1, .call 2 (.send 5), .lock 2,
    .check 2, .update 2 0, .unlock 2, .notifyOne 2 (some 0), .lock 0]

/-- While thread `0` has not evaluated its predicate again, thread `1` sleeps although there is a
value. -/
theorem channel_no_lost_wakeup_two_receivers :
    ∃ s : State ℕ (Fin 3), (system ℕ (Fin 3) 1).run (initial 1) twoReceivers = some s ∧
      (s.pc 1).sleepsOn .notEmpty = true ∧ s.channel.ready .notEmpty = true ∧
      ((∃ u, (s.pc u).owes .notEmpty = true) ∨ (∃ u, (s.pc u).unchecked .notEmpty = true) ∨
        ∃ u, (s.pc u).rechecked .notEmpty = true ∧ s.mtx = some u) := by
  obtain ⟨s, hs⟩ : ∃ s, (system ℕ (Fin 3) 1).run (initial 1) twoReceivers = some s := ⟨_, rfl⟩
  have hr : (system ℕ (Fin 3) 1).Reachable s := Automaton.Reachable.of_run rfl hs
  have hsleep : (s.pc 1).sleepsOn .notEmpty = true ∧ s.channel.ready .notEmpty = true := by
    obtain rfl := Option.some_inj.1 hs
    exact ⟨rfl, rfl⟩
  exact ⟨s, hs, hsleep.1, hsleep.2,
    (channel_no_lost_wakeup hr).1 .notEmpty 1 hsleep.1 hsleep.2⟩

/-- Between its evaluation and its update thread `0` is the only thread that will take the value:
nobody owes a notification, and no woken thread has yet to evaluate its predicate again. -/
theorem rechecked_receiver_hides_value :
    ∃ s : State ℕ (Fin 3), (system ℕ (Fin 3) 1).Reachable s ∧
      (s.pc 1).sleepsOn .notEmpty = true ∧ 0 < s.channel.size ∧
      ¬ ((∃ u, (s.pc u).owes .notEmpty = true) ∨ ∃ u, (s.pc u).unchecked .notEmpty = true) := by
  obtain ⟨s, hs⟩ : ∃ s, (system ℕ (Fin 3) 1).run (initial 1) (twoReceivers ++ [.check 0]) = some s :=
    ⟨_, rfl⟩
  refine ⟨s, Automaton.Reachable.of_run rfl hs, ?_⟩
  obtain rfl := Option.some_inj.1 hs
  decide

end BufferedChannel
