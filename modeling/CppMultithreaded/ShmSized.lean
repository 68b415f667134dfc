/-
**Accesses within the present size of a segment.**

`shm_open` makes an object of size zero, and its creator sizes it in a step of its own.  In between,
another node can open the object and map it, and its first load of `initState` is then beyond the size
of the object, which ends the process.  This is the only way: once the segment has been sized, and all
nodes have been given the same valid size, every access of every node is within the segment.

Main definitions:

* `SharedMemory.NodePc.access?` — the access that a node is about to make through its mapping;
* `SharedMemory.Sized` — no node makes its first load before the segment has been sized.

Main results:

* `SharedMemory.exists_run_of_access`, `SharedMemory.exists_access_of_faulted` — a node that makes an
  access goes on unless it is beyond the size, and a fault is such an access;
* `SharedMemory.size_eq_of_reachable` — a segment has not been sized, or has the size that all nodes
  have been given;
* `SharedMemory.access_within` — every access but that first load is within the segment;
* `SharedMemory.within_size_of_sized` — **no node accesses a segment beyond its size in a run in which
  no node makes its first load too early**, and a node that does is lost.
-/

import CppMultithreaded.ShmInit

set_option relaxedAutoImplicit false
set_option autoImplicit false

namespace SharedMemory

open MpscQueue (headerSize)

variable {ι : Type*}

/-! ### Accesses -/

/-- The segment and the field that a node is about to access through its mapping. -/
def NodePc.access? (kind : Kind) : NodePc → Option (ℕ × Field)
  | .initializeIfNeeded g ((f, _) :: _) => some (g, f)
  | .waitReady g => some (g, .initState)
  | .validate g (c :: _) => some (g, c.field)
  | .addKind g | .subKind g => some (g, kind.counter)
  | .addRef g | .subRef g => some (g, .refCount)
  | _ => none

/-- The segment whose `initState` a node waits for. -/
def NodePc.waiting? : NodePc → Option ℕ
  | .waitReady g => some g
  | _ => none

/-- A node that is about to load `initState` in `WaitUntilReady` has a segment that has been sized. -/
def Sized (s : State ι) : Action ι → Prop
  | .run i => ∀ g ∈ (s.node i).waiting?, (s.segment g).size ≠ 0
  | .fail _ => True

instance (s : State ι) (a : Action ι) : Decidable (Sized s a) :=
  match a with
  | .run i => inferInstanceAs (Decidable (∀ g ∈ (s.node i).waiting?, (s.segment g).size ≠ 0))
  | .fail _ => .isTrue trivial

/-- A node that is past `WaitUntilReady`, or that initialises, or that waits. -/
theorem NodePc.cases_of_access {pc : NodePc} {kind : Kind} {g : ℕ} {f : Field}
    (h : pc.access? kind = some (g, f)) :
    pc = .waitReady g ∨ (∃ todo, pc = .initializeIfNeeded g todo) ∨ pc.passed? = some g := by
  cases pc with
  | initializeIfNeeded g' todo =>
      cases todo with
      | nil => simp [access?] at h
      | cons x rest =>
          obtain ⟨rfl, -⟩ := Prod.mk.inj (Option.some.inj h)
          exact Or.inr (Or.inl ⟨_, rfl⟩)
  | waitReady g' =>
      obtain ⟨rfl, -⟩ := Prod.mk.inj (Option.some.inj h)
      exact Or.inl rfl
  | validate g' todo =>
      cases todo with
      | nil => simp [access?] at h
      | cons c rest =>
          obtain ⟨rfl, -⟩ := Prod.mk.inj (Option.some.inj h)
          exact Or.inr (Or.inr rfl)
  | addKind g' =>
      obtain ⟨rfl, -⟩ := Prod.mk.inj (Option.some.inj h)
      exact Or.inr (Or.inr rfl)
  | addRef g' =>
      obtain ⟨rfl, -⟩ := Prod.mk.inj (Option.some.inj h)
      exact Or.inr (Or.inr rfl)
  | subKind g' =>
      obtain ⟨rfl, -⟩ := Prod.mk.inj (Option.some.inj h)
      exact Or.inr (Or.inr rfl)
  | subRef g' =>
      obtain ⟨rfl, -⟩ := Prod.mk.inj (Option.some.inj h)
      exact Or.inr (Or.inr rfl)
  | _ => simp [access?] at h

section Step

variable [DecidableEq ι] {args : ι → Args} {s s' : State ι} {i : ι} {g n : ℕ} {f : Field}

/-- An access leads to a fault only beyond the size. -/
theorem lt_of_access_faulted {t : State ι} (h : (s.access i g f t).node i = .faulted)
    (ht : t.node i ≠ .faulted) : (s.segment g).size < f.bound := by
  rcases access_cases s i g f t with ⟨-, heq⟩ | ⟨hlt, -⟩
  · rw [heq] at h
    exact absurd h ht
  · exact hlt

/-- An access beyond the size leads to a fault. -/
theorem access_faulted (hlt : (s.segment g).size < f.bound) (t : State ι) :
    (s.access i g f t).node i = .faulted := by
  rw [State.access, if_neg (not_le.2 hlt)]
  exact State.node_goTo_self _ _ _

theorem afterStore_ne_faulted (g : ℕ) (rest : List (Field × ℕ)) :
    NodePc.afterStore g rest ≠ .faulted := by
  rw [NodePc.afterStore]
  split_ifs <;> simp

theorem afterCheck_ne_faulted (g : ℕ) (todo : List Check) : NodePc.afterCheck g todo ≠ .faulted := by
  cases todo <;> simp [NodePc.afterCheck]

theorem afterMap_ne_faulted (a : Args) (g : ℕ) (creator : Bool) :
    NodePc.afterMap a g creator ≠ .faulted := by
  rw [NodePc.afterMap]
  split
  · simp
  · split_ifs <;> simp

/-- **A node that is about to make an access** goes on in some way, unless the access is beyond the
size. -/
theorem exists_run_of_access {pc : NodePc} (hpc : s.node i = pc)
    (ha : pc.access? (args i).kind = some (g, f)) :
    ∃ t : State ι, s.run args i = some (s.access i g f t) ∧ t.node i ≠ .faulted := by
  cases pc with
  | initializeIfNeeded g' todo =>
      cases todo with
      | nil => simp [NodePc.access?] at ha
      | cons x rest =>
          obtain ⟨rfl, rfl⟩ := Prod.mk.inj (Option.some.inj ha)
          refine ⟨_, by rw [State.run, hpc], ?_⟩
          rw [State.node_goTo_self]
          exact afterStore_ne_faulted g' rest
  | waitReady g' =>
      obtain ⟨rfl, rfl⟩ := Prod.mk.inj (Option.some.inj ha)
      refine ⟨_, by rw [State.run, hpc], ?_⟩
      split_ifs
      · rw [State.node_goTo_self]
        exact afterCheck_ne_faulted g' _
      · simp [hpc]
  | validate g' todo =>
      cases todo with
      | nil => simp [NodePc.access?] at ha
      | cons c rest =>
          obtain ⟨rfl, rfl⟩ := Prod.mk.inj (Option.some.inj ha)
          refine ⟨_, by rw [State.run, hpc], ?_⟩
          split_ifs
          · rw [State.node_goTo_self]
            exact afterCheck_ne_faulted g' _
          · simp
  | addKind g' =>
      obtain ⟨rfl, rfl⟩ := Prod.mk.inj (Option.some.inj ha)
      exact ⟨_, by rw [State.run, hpc], by simp⟩
  | addRef g' =>
      obtain ⟨rfl, rfl⟩ := Prod.mk.inj (Option.some.inj ha)
      exact ⟨_, by rw [State.run, hpc], by simp⟩
  | subKind g' =>
      obtain ⟨rfl, rfl⟩ := Prod.mk.inj (Option.some.inj ha)
      exact ⟨_, by rw [State.run, hpc], by simp⟩
  | subRef g' =>
      obtain ⟨rfl, rfl⟩ := Prod.mk.inj (Option.some.inj ha)
      refine ⟨_, by rw [State.run, hpc], ?_⟩
      rw [State.node_goTo_self]
      split_ifs <;> simp
  | _ => simp [NodePc.access?] at ha

/-- A step that makes no access is no fault. -/
theorem ne_faulted_of_run (ha : (s.node i).access? (args i).kind = none)
    (h : s.run args i = some s') : s'.node i ≠ .faulted := by
  unfold State.run at h
  split at h
  case h_1 hpc =>
    obtain rfl := Option.some.inj h
    rw [State.node_goTo_self, NodePc.first]
    cases (args i).kind <;> simp
  case h_2 hpc =>
    split at h
    all_goals
      obtain rfl := Option.some.inj h
      simp [State.create]
  case h_3 hpc =>
    split at h
    all_goals
      obtain rfl := Option.some.inj h
      simp
  case h_4 g hpc =>
    obtain rfl := Option.some.inj h
    simp
  case h_5 g creator hpc =>
    obtain rfl := Option.some.inj h
    rw [State.node_goTo_self]
    exact afterMap_ne_faulted _ g creator
  case h_13 g hpc =>
    obtain rfl := Option.some.inj h
    simp
  case h_16 g hpc =>
    obtain rfl := Option.some.inj h
    simp [State.goTo]
  -- the steps that make an access, and those of a node that has ended
  all_goals simp_all [NodePc.access?]

/-- **A fault is an access beyond the size.** -/
theorem exists_access_of_faulted (h : s.run args i = some s') (hf : s'.node i = .faulted) :
    ∃ g f, (s.node i).access? (args i).kind = some (g, f) ∧ (s.segment g).size < f.bound := by
  cases ha : (s.node i).access? (args i).kind with
  | none => exact absurd hf (ne_faulted_of_run ha h)
  | some x =>
      obtain ⟨t, hrun, ht⟩ := exists_run_of_access (f := x.2) rfl ha
      obtain rfl := Option.some.inj (hrun.symm.trans h)
      exact ⟨x.1, x.2, rfl, lt_of_access_faulted hf ht⟩

/-! ### Sizes -/

/-- A step sizes a segment as one of the nodes has been told, or leaves its size, or creates it. -/
theorem size_of_effect {a : Action ι} (h : Effect args s a s') (g : ℕ) :
    (s'.segment g).size = (s.segment g).size ∨ (s'.segment g).size = 0 ∨
      ∃ i, (s'.segment g).size = (args i).shmSize := by
  have hset : ∀ {t : State ι} {g' : ℕ} {seg : Segment},
      t.segment = Function.update s.segment g' seg →
      seg.size = (s.segment g').size ∨ seg.size = 0 ∨ (∃ i, seg.size = (args i).shmSize) →
      (t.segment g).size = (s.segment g).size ∨ (t.segment g).size = 0 ∨
        ∃ i, (t.segment g).size = (args i).shmSize := by
    intro t g' seg ht hseg
    rw [ht]
    rcases eq_or_ne g g' with rfl | hne
    · rw [Function.update_self]
      exact hseg
    · rw [Function.update_of_ne hne]
      exact Or.inl rfl
  cases h with
  | create i hpc hname => exact hset rfl (Or.inr (Or.inl rfl))
  | truncate i g' hpc => exact hset rfl (Or.inr (Or.inr ⟨i, rfl⟩))
  | store i g' f v rest hpc hbound => exact hset rfl (Or.inl rfl)
  | addKind i g' hpc => exact hset rfl (Or.inl rfl)
  | addRef i g' hpc => exact hset rfl (Or.inl rfl)
  | subKind i g' hpc => exact hset rfl (Or.inl rfl)
  | subRef i g' hpc => exact hset rfl (Or.inl rfl)
  | _ => exact Or.inl rfl

/-- **A segment has not been sized, or has the size that all nodes have been given.** -/
theorem size_eq_of_reachable (hargs : ∀ i, (args i).shmSize = n) (h : (system args).Reachable s)
    (g : ℕ) : (s.segment g).size = 0 ∨ (s.segment g).size = n := by
  refine h.invariant (I := fun s => ∀ g, (s.segment g).size = 0 ∨ (s.segment g).size = n) ?_ ?_ g
  · rintro s rfl g
    exact Or.inl rfl
  · intro s a s' _ ih hs g
    rcases size_of_effect (effect_of_step hs) g with hsame | hzero | ⟨i, hi⟩
    · rw [hsame]
      exact ih g
    · exact Or.inl hzero
    · exact Or.inr (hi.trans (hargs i))

/-- **Every access is within the segment**, but for the first load of a node that does not find the
segment sized. -/
theorem access_within (hn : headerSize < n) (hargs : ∀ i, (args i).shmSize = n)
    (h : (system args).Reachable s) (hsized : Sized s (.run i))
    (ha : (s.node i).access? (args i).kind = some (g, f)) : f.bound ≤ (s.segment g).size := by
  have hsound := sound_of_reachable h
  have hbound := f.bound_lt
  rcases NodePc.cases_of_access ha with hpc | ⟨todo, hpc⟩ | hpc
  · have hne : (s.segment g).size ≠ 0 := hsized g (by rw [hpc]; rfl)
    rcases size_eq_of_reachable hargs h g with hzero | hsize
    · exact absurd hzero hne
    · omega
  · have hsize := (hsound.initializing i g todo hpc).1
    omega
  · have hsize := (hsound.published g (hsound.passed i g hpc)).size
    omega

/-- A system call that fails is no access. -/
theorem node_of_fail (h : Effect args s (.fail i) s') : s'.node i ≠ .faulted := by
  cases h with
  | exit _ hpc => simp
  | mapFails _ g creator hpc => simp

/-- **A step that meets the condition loses no node.** -/
theorem ne_faulted_of_step (hn : headerSize < n) (hargs : ∀ i, (args i).shmSize = n)
    (hr : (system args).Reachable s) {a : Action ι} (hsized : Sized s a)
    (hstep : step args s a = some s') (hs : ∀ i, s.node i ≠ .faulted) (j : ι) :
    s'.node j ≠ .faulted := by
  intro hj
  have heffect : Effect args s a s' := effect_of_step hstep
  by_cases hrun : a = .run j
  · subst hrun
    obtain ⟨g, f, ha, hlt⟩ := exists_access_of_faulted hstep hj
    have hle := access_within hn hargs hr hsized ha
    omega
  · by_cases hfail : a = .fail j
    · subst hfail
      exact node_of_fail heffect hj
    · rw [node_of_effect heffect hrun hfail] at hj
      exact hs j hj

/-- **A node that finds its segment not sized is lost by its first load.** -/
theorem faulted_of_not_sized (hnot : ¬Sized s (.run i)) :
    ∃ s', step args s (.run i) = some s' ∧ s'.node i = .faulted := by
  simp only [Sized, not_forall, not_not] at hnot
  obtain ⟨g, hmem, hzero⟩ := hnot
  have hpc : s.node i = .waitReady g := by
    cases hpc : s.node i with
    | waitReady g' =>
        rw [hpc] at hmem
        rw [Option.some.inj hmem]
    | _ =>
        rw [hpc] at hmem
        cases hmem
  obtain ⟨t, hrun, -⟩ : ∃ t : State ι, s.run args i = some (s.access i g .initState t) ∧
      t.node i ≠ .faulted := exists_run_of_access hpc rfl
  exact ⟨_, hrun, access_faulted (by rw [hzero]; exact Nat.succ_pos _) t⟩

/-- **No node accesses a segment beyond its present size in a run in which no node makes its first load
before the segment has been sized.**  All nodes have been given the same valid size; there may be any
number of them.  A node that does make this load too early is lost by it. -/
theorem within_size_of_sized (hn : headerSize < n) (hargs : ∀ i, (args i).shmSize = n) :
    (∀ s, ((system args).restrict Sized).Reachable s →
      (∀ i, s.node i ≠ .faulted) ∧
      ∀ i s' g f, ((system args).restrict Sized).step s (.run i) = some s' →
        (s.node i).access? (args i).kind = some (g, f) → f.bound ≤ (s.segment g).size) ∧
    ∀ s i, (system args).Reachable s → ¬Sized s (.run i) →
      ∃ s', (system args).step s (.run i) = some s' ∧ s'.node i = .faulted := by
  refine ⟨?_, ?_⟩
  · intro s hs
    refine ⟨?_, ?_⟩
    · refine hs.invariant (I := fun s => ∀ i, s.node i ≠ .faulted) ?_ ?_
      · rintro s rfl i
        simp [State.initial]
      · intro s a s' hr ih hstep
        obtain ⟨hsized, hst⟩ := Automaton.restrict_step_eq_some.1 hstep
        exact ne_faulted_of_step hn hargs hr.of_restrict hsized hst ih
    · intro i s' g f hstep ha
      exact access_within hn hargs hs.of_restrict (Automaton.restrict_step_eq_some.1 hstep).1 ha
  · intro s i _ hnot
    exact faulted_of_not_sized hnot

/-- A producer and a consumer, as the demonstration starts them. -/
def demo (kind : Kind) : Args := ⟨kind, 65536⟩

/-- When the consumer makes its first load after the producer has sized the segment, no node is lost. -/
theorem within_size_demo : ∃ s, ((system demo).restrict Sized).Reachable s ∧
    s.node .consumer = .waitReady 0 ∧ ∀ i, s.node i ≠ .faulted := by
  obtain ⟨s, hs⟩ : ∃ s, ((system demo).restrict Sized).run State.initial
      [.run .producer, .run .producer, .run .consumer, .run .consumer, .run .consumer,
        .run .producer, .run .consumer] = some s := ⟨_, rfl⟩
  have hr : ((system demo).restrict Sized).Reachable s := Automaton.Reachable.of_run rfl hs
  refine ⟨s, hr, ?_, ((within_size_of_sized (n := 65536) (by decide) fun _ => rfl).1 s hr).1⟩
  obtain rfl := Option.some_inj.1 hs
  rfl

/-- The consumer opens and maps the segment that the producer has created, and loads `initState` before
the producer has sized it. -/
theorem consumer_faults_before_ftruncate :
    ¬∀ s, (system demo).Reachable s → ∀ i, s.node i ≠ .faulted := by
  intro h
  obtain ⟨s, hs⟩ : ∃ s, (system demo).run State.initial
      [.run .producer, .run .producer, .run .consumer, .run .consumer, .run .consumer,
        .run .consumer] = some s := ⟨_, rfl⟩
  refine h s (Automaton.Reachable.of_run rfl hs) .consumer ?_
  obtain rfl := Option.some_inj.1 hs
  rfl

end Step

end SharedMemory
