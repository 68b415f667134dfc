/-
**`ApplyFunction` of hw-2 with a function that throws.**

The function that is applied may throw at an element.  In the loop of a single thread the exception
leaves `ApplyFunction`, and the caller gets it.  In a thread that has been spawned nothing catches it:
it leaves the function of the thread, and the process is terminated.  Every other step is the one of
the function that does not throw.

Main definitions:

* `ApplyFunction.Process`, `ApplyFunction.Call` — what has become of the call, and its state;
* `ApplyFunction.throwingStep`, `ApplyFunction.throwingSystem` — the threads, as an automaton;
* `ApplyFunction.ReportsFailure` — every run ends with an exception of the function for the caller, and
  no thread is left;
* `ApplyFunction.Guarded` — what holds while the call runs, and after it has ended.

Main results:

* `ApplyFunction.Guarded.step` — every step keeps the invariant;
* `ApplyFunction.throws_first` — the exception that the caller gets is that of the first element at
  which the function throws;
* `ApplyFunction.terminated_of_threads` — **with several threads, a function that throws at an element
  always ends the process**;
* `ApplyFunction.reportsFailure_iff` — **a failure is reported iff there is a single thread**, that is,
  one has been asked for, or there is one element.
-/

import CppMultithreaded.ApplyFunction

set_option relaxedAutoImplicit false
set_option autoImplicit false

namespace ApplyFunction

variable {α ε : Type*}

/-! ### Steps that throw -/

/-- What has become of a call. -/
inductive Process (ε : Type*)
  | running
  /-- The exception has left `ApplyFunction`. -/
  | threw (e : ε)
  /-- The exception has left the function of a thread, and `std::terminate` has been called. -/
  | terminated

/-- A call of `ApplyFunction` with a function that may throw. -/
structure Call (α ε : Type*) extends State α where
  process : Process ε

/-- The element that a step transforms. -/
def State.target (size : ℕ) (s : State α) : Action → Option ℕ
  | .main =>
      match s.main with
      | .looping j => if j < size then some j else none
      | _ => none
  | .worker k =>
      match s.threads[k]? with
      | some t => if t.next < t.chunk.stop then some t.next else none
      | none => none

/-- The threads that have been spawned, and not joined. -/
def State.unjoined (s : State α) : List Thread :=
  match s.main with
  | .joining k => s.threads.drop k
  | .returned => []
  | _ => s.threads

section

variable (transform : α → α × Option ε)

/-- What the function leaves in an element, whether it throws or not. -/
def value (x : α) : α := (transform x).1

/-- The exception that the function throws at the element number `j`. -/
def State.raised (s : State α) (j : ℕ) : Option ε := s.data[j]?.bind fun x => (transform x).2

/-- Where an exception gets to: out of the loop of a single thread to the caller, and out of the
function of a thread nowhere. -/
def Action.escape (e : ε) : Action → Process ε
  | .main => .threw e
  | .worker _ => .terminated

/-- The step function: that of a function that does not throw, but for an exception. -/
def throwingStep (size count : ℕ) (s : Call α ε) (a : Action) : Option (Call α ε) :=
  match s.process with
  | .running =>
      match (s.target size a).bind fun j => (s.raised transform j).map fun e => (j, e) with
      | some (j, e) =>
          some ⟨{ s.toState with data := s.data.modify j (value transform) }, a.escape e⟩
      | none => (step (value transform) size count s.toState a).map fun t => ⟨t, .running⟩
  | _ => none

/-- The call when it begins. -/
def Call.initial (data : List α) (count : ℕ) : Call α ε :=
  ⟨⟨data, .initial data.length count, [], []⟩, .running⟩

/-- A call of `ApplyFunction` with a function that may throw. -/
def throwingSystem (data : List α) (threadCount : ℤ) : Automaton (Call α ε) Action :=
  let size := data.length
  let count := actualThreadCount threadCount size
  { init := fun s => s = .initial data count
    step := throwingStep transform size count }

/-- A failure is reported: no run ends the process, every run ends, and it ends with an exception that
the function throws at an element, and without a thread that has not been joined. -/
structure ReportsFailure (data : List α) (threadCount : ℤ) : Prop where
  alive : ∀ s, (throwingSystem transform data threadCount).Reachable s → s.process ≠ .terminated
  exits : ∀ s, (throwingSystem transform data threadCount).Reachable s →
    (∀ a, (throwingSystem transform data threadCount).step s a = none) →
      (∃ e, s.process = .threw e ∧ ∃ x ∈ data, (transform x).2 = some e) ∧ s.unjoined = []
  ends : ∃ n, ∀ as s s', (throwingSystem transform data threadCount).init s →
    (throwingSystem transform data threadCount).run s as = some s' → as.length ≤ n

end

variable {transform : α → α × Option ε} {size count : ℕ} {s s' : Call α ε} {a : Action}

/-- The two kinds of steps: an exception, or a step of a function that does not throw. -/
inductive ThrowEffect (transform : α → α × Option ε) (size count : ℕ) (s : Call α ε) (a : Action) :
    Call α ε → Prop
  | raise (j : ℕ) (e : ε) : s.target size a = some j → s.raised transform j = some e →
      ThrowEffect transform size count s a
        ⟨{ s.toState with data := s.data.modify j (value transform) }, a.escape e⟩
  | go (t : State α) : (∀ j, s.target size a = some j → s.raised transform j = none) →
      step (value transform) size count s.toState a = some t →
      ThrowEffect transform size count s a ⟨t, .running⟩

/-- **Inversion of the step function.** -/
theorem throwEffect_of_step (h : throwingStep transform size count s a = some s') :
    s.process = .running ∧ ThrowEffect transform size count s a s' := by
  cases hp : s.process with
  | threw e => simp [throwingStep, hp] at h
  | terminated => simp [throwingStep, hp] at h
  | running =>
      refine ⟨rfl, ?_⟩
      simp only [throwingStep, hp] at h
      cases hraise : (s.target size a).bind fun j => (s.raised transform j).map fun e => (j, e) with
      | some r =>
          simp only [hraise, Option.some.injEq] at h
          obtain ⟨j, htarget, hmap⟩ := Option.bind_eq_some_iff.1 hraise
          obtain ⟨e, he, rfl⟩ := Option.map_eq_some_iff.1 hmap
          rw [← h]
          exact ThrowEffect.raise j e htarget he
      | none =>
          simp only [hraise] at h
          obtain ⟨t, ht, rfl⟩ := Option.map_eq_some_iff.1 h
          refine ThrowEffect.go t ?_ ht
          intro j htarget
          rw [htarget, Option.bind_some] at hraise
          exact Option.map_eq_none_iff.1 hraise

/-- While the call runs, a step that is possible without exceptions is possible with them. -/
theorem exists_throwingStep (hp : s.process = .running)
    (h : ∃ t, step (value transform) size count s.toState a = some t) :
    ∃ s', throwingStep transform size count s a = some s' := by
  obtain ⟨t, ht⟩ := h
  cases hraise : (s.target size a).bind fun j => (s.raised transform j).map fun e => (j, e) with
  | some r => exact ⟨_, by simp only [throwingStep, hp, hraise]; rfl⟩
  | none => exact ⟨_, by simp only [throwingStep, hp, hraise, ht]; rfl⟩

/-- A step transforms the element that it is about to. -/
theorem applied_of_step {t : State α} {f : α → α} {s : State α}
    (h : step f size count s a = some t) :
    t.applied = s.applied ++ (s.target size a).toList := by
  cases effect_of_step h with
  | loop j hm hj => simp [State.target, State.apply, hm, hj]
  | loopEnd j hm hj => simp [State.target, hm, not_lt.2 hj]
  | spawn i start c hm hi hnext => simp [State.target, hm]
  | spawned i start hm hi => simp [State.target, hm]
  | join k t hm hk hdone => simp [State.target, hm]
  | joined k hm hk => simp [State.target, hm]
  | work k t hk hlt => simp [State.target, State.apply, hk, hlt]

/-! ### The two paths -/

/-- The main thread is on the path that the number of threads decides. -/
def MainPc.OnPath (count : ℕ) : MainPc → Prop
  | .looping _ => count = 1
  | .spawning _ _ => count ≠ 1
  | .joining _ => count ≠ 1
  | .returned => True

/-- A single thread spawns no others. -/
structure OnPath (count : ℕ) (s : State α) : Prop where
  main : s.main.OnPath count
  threads : count = 1 → s.threads = []

theorem OnPath.initial (data : List α) (count : ℕ) :
    OnPath count ⟨data, .initial data.length count, [], []⟩ := by
  refine ⟨?_, fun _ => rfl⟩
  simp only [MainPc.initial]
  split_ifs with hsize hcount
  · trivial
  · exact hcount
  · exact hcount

theorem OnPath.step {f : α → α} {s t : State α} (h : OnPath count s)
    (hs : ApplyFunction.step f size count s a = some t) : OnPath count t := by
  have hmain := h.main
  cases effect_of_step hs with
  | loop j hm hj =>
      rw [hm] at hmain
      exact ⟨hmain, h.threads⟩
  | loopEnd j hm hj => exact ⟨trivial, h.threads⟩
  | spawn i start c hm hi hnext =>
      rw [hm] at hmain
      exact ⟨hmain, fun hone => absurd hone hmain⟩
  | spawned i start hm hi =>
      rw [hm] at hmain
      exact ⟨hmain, h.threads⟩
  | join k t hm hk hdone =>
      rw [hm] at hmain
      exact ⟨hmain, h.threads⟩
  | joined k hm hk => exact ⟨trivial, h.threads⟩
  | work k t hk hlt =>
      refine ⟨hmain, fun hone => ?_⟩
      rw [h.threads hone] at hk
      simp at hk

/-- **Where an exception gets to is decided by the number of threads.** -/
theorem OnPath.target {s : State α} {j : ℕ} (h : OnPath count s) (ht : s.target size a = some j) :
    a = .main ∧ count = 1 ∨ (∃ k, a = .worker k) ∧ count ≠ 1 := by
  cases a with
  | main =>
      have hmain := h.main
      cases hm : s.main with
      | looping j =>
          rw [hm] at hmain
          exact Or.inl ⟨rfl, hmain⟩
      | spawning i start => simp [State.target, hm] at ht
      | joining k => simp [State.target, hm] at ht
      | returned => simp [State.target, hm] at ht
  | worker k =>
      refine Or.inr ⟨⟨k, rfl⟩, fun hone => ?_⟩
      simp [State.target, h.threads hone] at ht

/-- The main thread transforms the element at which its loop is. -/
theorem looping_of_target {s : State α} {j : ℕ} (h : s.target size .main = some j) :
    s.main = .looping j := by
  cases hm : s.main with
  | looping i =>
      simp only [State.target, hm] at h
      split_ifs at h with hlt
      rw [Option.some.inj h]
  | spawning i start => simp [State.target, hm] at h
  | joining k => simp [State.target, hm] at h
  | returned => simp [State.target, hm] at h

/-! ### The invariant -/

/-- The function throws at the element number `j` of the vector. -/
def Throws (transform : α → α × Option ε) (original : List α) (j : ℕ) (e : ε) : Prop :=
  original[j]?.bind (fun x => (transform x).2) = some e

/-- What holds at each point of a call for the vector `original`. -/
def Process.Holds (transform : α → α × Option ε) (original : List α) (count : ℕ) (s : State α) :
    Process ε → Prop
  | .running =>
      Invariant (value transform) original count s ∧ ∀ j ∈ s.applied, ∀ e, ¬Throws transform original j e
  | .threw e =>
      count = 1 ∧ ∃ j, Throws transform original j e ∧ ∀ i < j, ∀ e', ¬Throws transform original i e'
  | .terminated => count ≠ 1

/-- The invariant of a call for the vector `original`. -/
structure Guarded (transform : α → α × Option ε) (original : List α) (count : ℕ) (s : Call α ε) :
    Prop where
  path : OnPath count s.toState
  process : s.process.Holds transform original count s.toState

namespace Guarded

variable {original : List α}

/-- An element that a step is about to transform is as it was. -/
theorem raised_eq (hI : Invariant (value transform) original count s.toState) {j : ℕ}
    (hc : Chunked original.length count (chunks original.length count))
    (ht : s.target original.length a = some j) :
    s.raised transform j = original[j]?.bind fun x => (transform x).2 := by
  have hnot : j ∉ s.applied := by
    cases a with
    | main =>
        have hmain := hI.main
        rw [looping_of_target ht] at hmain
        exact fun hmem => absurd ((hmain.2.2 j).1 hmem) (lt_irrefl j)
    | worker k =>
        simp only [State.target] at ht
        cases hk : s.threads[k]? with
        | none => simp [hk] at ht
        | some t =>
            simp only [hk] at ht
            split_ifs at ht with hlt
            obtain rfl := Option.some.inj ht
            obtain ⟨rest, hthreaded⟩ := hI.threaded hk hlt
            exact hthreaded.notMem hc hk hlt
  rw [State.raised, hI.transformed.getElem, if_neg hnot]

/-- **Every step keeps the invariant.** -/
theorem step (h : Guarded transform original count s)
    (hc : Chunked original.length count (chunks original.length count))
    (hs : throwingStep transform original.length count s a = some s') :
    Guarded transform original count s' := by
  obtain ⟨hrunning, heffect⟩ := throwEffect_of_step hs
  have hprocess := h.process
  rw [hrunning] at hprocess
  obtain ⟨hI, hquiet⟩ := hprocess
  cases heffect with
  | raise j e ht hraised =>
      rw [raised_eq hI hc ht] at hraised
      refine ⟨⟨h.path.main, h.path.threads⟩, ?_⟩
      rcases h.path.target ht with ⟨rfl, hone⟩ | ⟨⟨k, rfl⟩, hmany⟩
      · -- the loop has transformed the elements below `j`
        have hmain := hI.main
        rw [looping_of_target ht] at hmain
        exact ⟨hone, j, hraised, fun i hi => hquiet i ((hmain.2.2 i).2 hi)⟩
      · exact hmany
  | go t hgo ht =>
      refine ⟨h.path.step ht, hI.step hc ht, ?_⟩
      intro j hj e hthrows
      rw [applied_of_step ht, List.mem_append] at hj
      rcases hj with hj | hj
      · exact hquiet j hj e hthrows
      · -- the element of this step
        have htarget := Option.mem_toList.1 hj
        have hnone := hgo j htarget
        rw [raised_eq hI hc htarget, hthrows] at hnone
        cases hnone

end Guarded

variable {data : List α} {threadCount : ℤ}

theorem guarded_of_reachable (h : (throwingSystem transform data threadCount).Reachable s) :
    Guarded transform data (actualThreadCount threadCount data.length) s := by
  refine h.invariant ?_ ?_
  · rintro s rfl
    exact ⟨OnPath.initial data _, invariant_of_reachable (.init rfl),
      fun j hj => absurd hj List.not_mem_nil⟩
  · intro s a s' _ hG hs
    exact hG.step (chunked_actual threadCount data.length) hs

/-! ### How a call ends -/

/-- The steps that are left for a call, the last one being that which ends it. -/
def Call.work (size count : ℕ) (s : Call α ε) : ℕ :=
  match s.process with
  | .running => s.toState.work size count + 1
  | _ => 0

theorem Guarded.work_lt {original : List α} (h : Guarded transform original count s)
    (hc : Chunked original.length count (chunks original.length count))
    (hs : throwingStep transform original.length count s a = some s') :
    s'.work original.length count < s.work original.length count := by
  obtain ⟨hrunning, heffect⟩ := throwEffect_of_step hs
  have hprocess := h.process
  rw [hrunning] at hprocess
  cases heffect with
  | raise j e ht hraised =>
      rw [Call.work, Call.work, hrunning]
      cases a with
      | main => exact Nat.succ_pos _
      | worker k => exact Nat.succ_pos _
  | go t hgo ht =>
      rw [Call.work, Call.work, hrunning]
      exact Nat.succ_lt_succ (hprocess.1.work_lt hc ht)

/-- The length of a run is bounded. -/
theorem length_throwingRun_le {as : List Action}
    (h : (throwingSystem transform data threadCount).init s)
    (hrun : (throwingSystem transform data threadCount).run s as = some s') :
    as.length ≤ s.work data.length (actualThreadCount threadCount data.length) := by
  have hc := chunked_actual threadCount data.length
  have hle := @Automaton.length_run_le _ _ (throwingSystem transform data threadCount)
    (throwingSystem transform data threadCount).Reachable
    (Call.work data.length (actualThreadCount threadCount data.length)) (fun _ => false) 0
    (fun t a t' hr hst => ⟨hr.step a hst, (guarded_of_reachable hr).work_lt hc hst⟩) as s s'
    (.init h) hrun
  rw [Nat.zero_mul] at hle
  exact (Nat.le_add_right _ _).trans hle

/-- **A call that can make no step has ended**, where the function throws at an element. -/
theorem process_ne_running (h : (throwingSystem transform data threadCount).Reachable s)
    (hfinal : ∀ a, (throwingSystem transform data threadCount).step s a = none)
    {x : α} (hx : x ∈ data) {e : ε} (he : (transform x).2 = some e) : s.process ≠ .running := by
  intro hrunning
  have hprocess := (guarded_of_reachable h).process
  rw [hrunning] at hprocess
  obtain ⟨hI, hquiet⟩ := hprocess
  by_cases hreturned : s.main = .returned
  · -- all elements have been transformed, and none of them has thrown
    have hmain := hI.main
    rw [hreturned] at hmain
    obtain ⟨j, hj⟩ := List.getElem?_of_mem hx
    have hlt := (List.getElem?_eq_some_iff.1 hj).1
    refine hquiet j ((hmain.1 j).2 hlt) e ?_
    rw [Throws, hj, Option.bind_some, he]
  · have hexists : ∃ a t, step (value transform) data.length
        (actualThreadCount threadCount data.length) s.toState a = some t :=
      Invariant.exists_step hreturned
    obtain ⟨a, hstep⟩ := hexists
    obtain ⟨s', hs'⟩ := exists_throwingStep hrunning hstep
    have hnone := hfinal a
    rw [show (throwingSystem transform data threadCount).step s a = some s' from hs'] at hnone
    cases hnone

/-- The exception that the caller gets is one of the function at an element. -/
theorem exists_mem_of_throws {j : ℕ} {e : ε} (h : Throws transform data j e) :
    ∃ x ∈ data, (transform x).2 = some e := by
  obtain ⟨x, hx, he⟩ := Option.bind_eq_some_iff.1 h
  exact ⟨x, List.mem_of_getElem? hx, he⟩

/-- **The caller gets the exception of the first element** at which the function throws. -/
theorem throws_first {e : ε} (h : (throwingSystem transform data threadCount).Reachable s)
    (hp : s.process = .threw e) :
    ∃ j, Throws transform data j e ∧ ∀ i < j, ∀ e', ¬Throws transform data i e' := by
  have hprocess := (guarded_of_reachable h).process
  rw [hp] at hprocess
  exact hprocess.2

/-- **With several threads, a function that throws at an element always ends the process.** -/
theorem terminated_of_threads (hcount : actualThreadCount threadCount data.length ≠ 1) {x : α}
    (hx : x ∈ data) {e : ε} (he : (transform x).2 = some e)
    (h : (throwingSystem transform data threadCount).Reachable s)
    (hfinal : ∀ a, (throwingSystem transform data threadCount).step s a = none) :
    s.process = .terminated := by
  have hprocess := (guarded_of_reachable h).process
  have hnot := process_ne_running h hfinal hx he
  cases hp : s.process with
  | running => exact absurd hp hnot
  | threw e =>
      rw [hp] at hprocess
      exact absurd hprocess.1 hcount
  | terminated => rfl

/-- Every call ends. -/
theorem exists_final (transform : α → α × Option ε) (data : List α) (threadCount : ℤ) :
    ∃ s, (throwingSystem transform data threadCount).Reachable s ∧
      ∀ a, (throwingSystem transform data threadCount).step s a = none := by
  have hc := chunked_actual threadCount data.length
  have hinit : (throwingSystem transform data threadCount).init
    (.initial data (actualThreadCount threadCount data.length)) := rfl
  have hstep : ∀ s, (throwingSystem transform data threadCount).Reachable s →
      (∀ a, (throwingSystem transform data threadCount).step s a = none) ∨
        ∃ a s', (throwingSystem transform data threadCount).step s a = some s' ∧
          (throwingSystem transform data threadCount).Reachable s' ∧
          s'.work data.length (actualThreadCount threadCount data.length) <
            s.work data.length (actualThreadCount threadCount data.length) := by
    intro s hs
    by_cases hfinal : ∀ a, (throwingSystem transform data threadCount).step s a = none
    · exact Or.inl hfinal
    · obtain ⟨a, ha⟩ := not_forall.1 hfinal
      obtain ⟨s', hs'⟩ := Option.ne_none_iff_exists'.1 ha
      exact Or.inr ⟨a, s', hs', hs.step a hs', (guarded_of_reachable hs).work_lt hc hs'⟩
  obtain ⟨s, hsteps, hfinal⟩ := Automaton.Steps.exists_of_rank hstep (.init hinit)
  exact ⟨s, (Automaton.Reachable.init hinit).steps hsteps, hfinal⟩

/-- There is a single thread iff one has been asked for, or there is one element. -/
theorem actualThreadCount_eq_one (hdata : data ≠ []) :
    actualThreadCount threadCount data.length = 1 ↔ threadCount ≤ 1 ∨ data.length = 1 := by
  have hpos := List.length_pos_iff.2 hdata
  simp only [actualThreadCount]
  split_ifs
  all_goals omega

/-- **A failure is reported iff there is a single thread.**  For every vector with an element at which
the function throws, and every number of threads: every run ends with an exception of the function for
the caller, none ends the process, and no thread is left, iff at most one thread has been asked for or
there is one element. -/
theorem reportsFailure_iff (transform : α → α × Option ε) (data : List α) (threadCount : ℤ)
    (hthrows : ∃ x ∈ data, ∃ e, (transform x).2 = some e) :
    ReportsFailure transform data threadCount ↔ threadCount ≤ 1 ∨ data.length = 1 := by
  obtain ⟨x, hx, e, he⟩ := hthrows
  rw [← actualThreadCount_eq_one (List.ne_nil_of_mem hx)]
  constructor
  · intro hreports
    by_contra hcount
    obtain ⟨s, hs, hfinal⟩ := exists_final transform data threadCount
    exact hreports.alive s hs (terminated_of_threads hcount hx he hs hfinal)
  · intro hone
    refine ⟨?_, ?_, ?_⟩
    · intro s hs hterminated
      have hprocess := (guarded_of_reachable hs).process
      rw [hterminated] at hprocess
      exact hprocess hone
    · intro s hs hfinal
      have hG := guarded_of_reachable hs
      have hprocess := hG.process
      have hnot := process_ne_running hs hfinal hx he
      have hthreads := hG.path.threads hone
      refine ⟨?_, ?_⟩
      · cases hp : s.process with
        | running => exact absurd hp hnot
        | threw e =>
            rw [hp] at hprocess
            obtain ⟨-, j, hj, -⟩ := hprocess
            exact ⟨e, rfl, exists_mem_of_throws hj⟩
        | terminated =>
            rw [hp] at hprocess
            exact absurd hone hprocess
      · rw [State.unjoined, hthreads]
        split <;> simp
    · refine ⟨(Call.initial data (actualThreadCount threadCount data.length) : Call α ε).work
        data.length (actualThreadCount threadCount data.length), ?_⟩
      rintro as s s' rfl hrun
      exact length_throwingRun_le rfl hrun

/-- A function that throws at the element `0`. -/
def rejectZero (x : ℕ) : ℕ × Option String := (x, if x = 0 then some "zero" else none)

/-- With one thread the failure of the second of two elements is reported. -/
theorem reportsFailure_single_thread : ReportsFailure rejectZero [1, 0] 1 :=
  (reportsFailure_iff rejectZero [1, 0] 1 ⟨0, by simp, "zero", rfl⟩).2 (Or.inl (by decide))

/-- With two threads it ends the process. -/
theorem not_reportsFailure_two_threads : ¬ReportsFailure rejectZero [1, 0] 2 := by
  intro hreports
  obtain ⟨s, hs⟩ : ∃ s, (throwingSystem rejectZero [1, 0] 2).run
      (.initial [1, 0] 2) [.main, .main, .worker 1] = some s := ⟨_, rfl⟩
  have hr : (throwingSystem rejectZero [1, 0] 2).Reachable s := Automaton.Reachable.of_run rfl hs
  refine hreports.alive s hr ?_
  obtain rfl := Option.some_inj.1 hs
  rfl

end ApplyFunction
